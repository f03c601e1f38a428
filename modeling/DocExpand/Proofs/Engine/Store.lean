/-
  DocExpand.Proofs.Engine.Store — setting and deleting, as operations on a store of nodes.

  When they fail: a value is refused for its bytes, else for want of a place to write it
  (`Writable`), else for a root that would be no array or object or for a document that would
  nest too deep (`Unwritten`); a removal is refused for the root and where there is nothing to
  remove (`Unremoved`). There is no other refusal, and none changes anything (`edits_refused`).

  What they do: a node that was set is read there, setting again and setting what is there are
  as they should be, a member that was added can be taken away again, and places that part from
  the change see nothing of it (`store_lawful`).
-/

import DocExpand.Proofs.Engine.Edits
import DocExpand.Proofs.Locator.Normal

namespace DocExpand.Edit

open Locator (Diverge normal resolve write?)

variable {b p q : Locator} {s : Segment} {d d' d1 node : Json} {value : NewValue} {cause : Error} {ms : Members Json}
  {items : List Json}

/-! ## Where a value can be written -/

/-- The root, a member that an object has or has not, an item that an array has. -/
inductive Writable (d : Json) (b : Locator) : Prop
  | root : b = [] → Writable d b
  | member {p : Locator} {s : Segment} {ms : Members Json} : b = p ++ [s] → resolve p d = some (.obj ms) → Writable d b
  | item {p : Locator} {s : Segment} {items : List Json} {n : Nat} : b = p ++ [s] → resolve p d = some (.arr items) →
    s.index? = some n → n < items.length → Writable d b

theorem setChild?_obj_isSome (ms : Members Json) (s : Segment) (node : Json) : ∃ d', (Json.obj ms).setChild? s node = some d' :=
  ⟨_, rfl⟩

theorem setChild?_arr_isSome {n : Nat} (hn : s.index? = some n) (hlt : n < items.length) (node : Json) :
    ∃ d', (Json.arr items).setChild? s node = some d' :=
  ⟨.arr (items.set n node), by rw [Json.setChild?, hn, Option.bind_some, if_pos hlt]⟩

theorem writable_iff (node : Json) : Writable d b ↔ ∃ d', write? b node d = some d' := by
  constructor
  · intro h
    cases h with
    | root hb =>
      subst hb
      exact ⟨node, rfl⟩
    | member hb hr =>
      subst hb
      obtain ⟨m, hset⟩ := setChild?_obj_isSome _ _ node
      obtain ⟨d', hd', -⟩ := Locator.modify?_some (f := (·.setChild? _ node)) hr hset
      exact ⟨d', (Locator.write?_snoc ..).trans hd'⟩
    | item hb hr hn hlt =>
      subst hb
      obtain ⟨m, hset⟩ := setChild?_arr_isSome hn hlt node
      obtain ⟨d', hd', -⟩ := Locator.modify?_some (f := (·.setChild? _ node)) hr hset
      exact ⟨d', (Locator.write?_snoc ..).trans hd'⟩
  · rintro ⟨d', hd'⟩
    rcases List.eq_nil_or_concat' b with rfl | ⟨p, s, rfl⟩
    · exact .root rfl
    · rw [Locator.write?_snoc] at hd'
      obtain ⟨parent, m, hr, hset, -⟩ := Locator.modify?_eq_some hd'
      cases parent with
      | null | bool _ | num _ | str _ => cases hset
      | obj ms => exact .member rfl hr
      | arr items =>
        obtain ⟨n, hn, hc⟩ := Option.bind_eq_some_iff.mp hset
        split at hc
        · rename_i hlt
          exact .item rfl hr hn hlt
        · cases hc

/-- The root of the document after a write is an array or object unless a scalar was written there. -/
theorem write?_container (hd : d.Sound) (h : write? b node d = some d') :
    d'.kind.isContainer = false ↔ b = [] ∧ node.kind.isContainer = false := by
  rcases List.eq_nil_or_concat' b with rfl | ⟨p, s, rfl⟩
  · cases h
    simp
  · rw [Locator.write?_snoc] at h
    rw [Locator.modify?_kind h fun _ _ => Json.setChild?_kind, hd.container]
    simp

/-- It nests too deep exactly if what was written does at its place. -/
theorem write?_deep (hd : d.Sound) (h : write? b node d = some d') :
    Json.nestingLimit < d'.nesting ↔ Json.nestingLimit < b.length + node.nesting := by
  have hshallow := hd.shallow
  rcases List.eq_nil_or_concat' b with rfl | ⟨p, s, rfl⟩
  · cases h
    simp
  · rw [Locator.write?_snoc] at h
    obtain ⟨parent, m, hr, hset, -⟩ := Locator.modify?_eq_some h
    have hchange := Locator.modify?_nesting (f := (·.setChild? s node)) hr hset h
    have hchild := Json.setChild?_nesting hset
    have hparent := Locator.resolve_nesting hr
    rw [List.length_append, List.length_singleton]
    omega

/-! ## What is refused -/

theorem toJson_error : value.toJson = .error cause ↔
    ∃ bytes, value = .encoded bytes ∧ Json.decode bytes = none ∧ cause = .integrity (.encodedValue bytes) := by
  cases value with
  | text _ | tree _ => simp [NewValue.toJson]
  | encoded bytes =>
    rw [NewValue.toJson]
    cases hdecode : Json.decode bytes with
    | some j => simp [hdecode]
    | none => simp [hdecode, eq_comm]

theorem written_error : written b value d = .error cause ↔
    value.toJson = .error cause ∨ ∃ node, value.toJson = .ok node ∧ write? b node d = none ∧ cause = .branchNotFound b := by
  unfold written
  cases value.toJson with
  | error e => simp [Except.bind]
  | ok node => cases hw : write? b node d <;> simp [Except.bind, hw, eq_comm]

theorem removed_error : removed b d = .error cause ↔
    b = [] ∧ cause = .integrity .rootDeletion ∨ resolve b d = none ∧ cause = .branchNotFound b := by
  unfold removed
  by_cases hb : b = []
  · subst hb
    simp [eq_comm]
  · have hgone := Locator.remove?_isSome hb d
    rw [if_neg hb]
    cases hr : Locator.remove? b d with
    | none =>
      rw [hr] at hgone
      have hnone : resolve b d = none := Option.isSome_eq_false_iff.mp hgone.symm |> Option.isNone_iff_eq_none.mp
      simp [hb, hnone, eq_comm]
    | some d1 =>
      rw [hr] at hgone
      obtain ⟨node, hsome⟩ := Option.isSome_iff_exists.mp hgone.symm
      simp [hb, hsome]

/-- Why a value is not written: its bytes, its place, the root or the depth of the document that it would make. -/
inductive Unwritten (b : Locator) (value : NewValue) (d : Json) : Error → Prop
  | bytes {bytes : ByteArray} : value = .encoded bytes → Json.decode bytes = none →
    Unwritten b value d (.integrity (.encodedValue bytes))
  | place {node : Json} : value.toJson = .ok node → ¬ Writable d b → Unwritten b value d (.branchNotFound b)
  | root {node d1 : Json} : value.toJson = .ok node → write? b node d = some d1 → d1.kind.isContainer = false →
    Unwritten b value d (.integrity (.scalarRoot d1.kind))
  | depth {node d1 : Json} : value.toJson = .ok node → write? b node d = some d1 → d1.kind.isContainer = true →
    127 < d1.nesting → Unwritten b value d (.integrity (.undecodable d1.encode))

/-- Why nothing is removed: the root has to stay, or nothing is there. -/
inductive Unremoved (b : Locator) (d : Json) : Error → Prop
  | root : b = [] → Unremoved b d (.integrity .rootDeletion)
  | place : resolve b d = none → Unremoved b d (.branchNotFound b)

theorem put_refused : (put b value).runOn d = (.error cause, d') ↔ d' = d ∧ Unwritten b value d cause := by
  rw [runOn_put, settled_eq_error, written_error]
  simp only [written_ok]
  refine and_congr_right fun _ => ⟨?_, fun h => ?_⟩
  · rintro ((hbytes | ⟨node, hv, hw, rfl⟩) | ⟨d1, ⟨node, hv, hw⟩, hverdict⟩)
    · obtain ⟨bytes, rfl, hdecode, rfl⟩ := toJson_error.mp hbytes
      exact .bytes rfl hdecode
    · refine .place hv fun hwritable => ?_
      obtain ⟨d1, hd1⟩ := (writable_iff node).mp hwritable
      rw [hw] at hd1
      cases hd1
    · rcases verdict_eq_error.mp hverdict with ⟨hc, rfl⟩ | ⟨hc, hn, rfl⟩
      · exact .root hv hw hc
      · exact .depth hv hw hc hn
  · cases h with
    | bytes hv hdecode => exact .inl (.inl (toJson_error.mpr ⟨_, hv, hdecode, rfl⟩))
    | @place node hv hnot =>
      refine .inl (.inr ⟨node, hv, ?_, rfl⟩)
      rw [Option.eq_none_iff_forall_ne_some]
      exact fun d1 hd1 => hnot ((writable_iff node).mpr ⟨d1, hd1⟩)
    | root hv hw hc => exact .inr ⟨_, ⟨_, hv, hw⟩, verdict_eq_error.mpr (.inl ⟨hc, rfl⟩)⟩
    | depth hv hw hc hn => exact .inr ⟨_, ⟨_, hv, hw⟩, verdict_eq_error.mpr (.inr ⟨hc, hn, rfl⟩)⟩

theorem delete_refused (hd : d.Sound) : (delete b).runOn d = (.error cause, d') ↔ d' = d ∧ Unremoved b d cause := by
  rw [runOn_delete, settled_eq_error, removed_error]
  refine and_congr_right fun _ => ⟨?_, fun h => ?_⟩
  · rintro ((⟨hb, rfl⟩ | ⟨hr, rfl⟩) | ⟨d1, hd1, hverdict⟩)
    · exact .root hb
    · exact .place hr
    · rw [verdict_ok.mpr (remove?_sound hd (removed_ok.mp hd1))] at hverdict
      cases hverdict
  · cases h with
    | root hb => exact .inl (.inl ⟨hb, rfl⟩)
    | place hr => exact .inl (.inr ⟨hr, rfl⟩)

/-- An edit that is never refused works. -/
theorem ok_iff_not_refused {edit : Edit Unit} {Refused : Error → Prop}
    (h : ∀ cause d', edit.runOn d = (.error cause, d') ↔ d' = d ∧ Refused cause) :
    (∃ d', edit.runOn d = (.ok (), d')) ↔ ∀ cause, ¬ Refused cause := by
  constructor
  · rintro ⟨d', hok⟩ cause hrefused
    rw [(h cause d).mpr ⟨rfl, hrefused⟩] at hok
    cases hok
  · intro hnone
    rcases hrun : edit.runOn d with ⟨cause | u, d'⟩
    · exact absurd ((h cause d').mp hrun).2 (hnone cause)
    · exact ⟨d', rfl⟩

/-- Setting and deleting fail for these reasons only, succeed where there is none, and change nothing when they fail. -/
theorem edits_refused (hd : d.Sound) (b : Locator) (value : NewValue) :
    (∀ cause d', (put b value).runOn d = (.error cause, d') ↔ d' = d ∧ Unwritten b value d cause) ∧
      ((∃ d', (put b value).runOn d = (.ok (), d')) ↔ ∀ cause, ¬ Unwritten b value d cause) ∧
      (∀ node d1, value.toJson = .ok node → write? b node d = some d1 →
        (d1.kind.isContainer = false ↔ b = [] ∧ node.kind.isContainer = false) ∧
          (127 < d1.nesting ↔ 127 < b.length + node.nesting)) ∧
      (∀ cause d', (delete b).runOn d = (.error cause, d') ↔ d' = d ∧ Unremoved b d cause) ∧
      ((∃ d', (delete b).runOn d = (.ok (), d')) ↔ b ≠ [] ∧ ∃ node, resolve b d = some node) := by
  refine ⟨fun _ _ => put_refused, ok_iff_not_refused fun _ _ => put_refused,
    fun node d1 _ hw => ⟨write?_container hd hw, write?_deep hd hw⟩, fun _ _ => delete_refused hd, ?_⟩
  rw [ok_iff_not_refused fun _ _ => delete_refused hd]
  constructor
  · intro h
    refine ⟨fun hb => h _ (.root hb), ?_⟩
    cases hr : resolve b d with
    | none => exact absurd (.place hr) (h _)
    | some node => exact ⟨node, rfl⟩
  · rintro ⟨hb, node, hr⟩ cause hrefused
    cases hrefused with
    | root hroot => exact hb hroot
    | place hnone =>
      rw [hr] at hnone
      cases hnone

/-- A tree of 126 arrays does not go into an array that is a member: nothing is written. -/
theorem edits_refused_deep :
    let d : Json := .obj [("a", .arr [.null])]
    let b : Locator := [.key "a", .key "+0"]
    let deep : Json := Nat.repeat (fun j => .arr [j]) 126 .null
    (put b (.tree deep)).runOn d = (.error (.integrity (.undecodable (Json.obj [("a", .arr [deep])]).encode)), d) := by
  intro d b deep
  obtain ⟨hput, -, hwritten, -, -⟩ := edits_refused (by decide : d.Sound) b (.tree deep)
  have hw : write? b deep d = some (.obj [("a", .arr [deep])]) := rfl
  have hnests : 127 < b.length + deep.nesting := by decide +kernel
  exact (hput _ d).mpr ⟨rfl, .depth rfl hw rfl ((hwritten deep _ rfl hw).2.mpr hnests)⟩

/-! ## What is left -/

/-- What setting leaves: the value is read, setting again is as before, a member that was added can go again, and nothing
    else has changed. -/
structure Stored (b : Locator) (value : NewValue) (d d' : Json) : Prop where
  read : ∃ node, value.toJson = .ok node ∧ (valueAt b).runOn d' = (.ok ⟨node, b.display⟩, d')
  again : ∀ other d'', (put b other).runOn d' = (.ok (), d'') ↔ (put b other).runOn d = (.ok (), d'')
  undone : ∀ p s ms, b = p ++ [s] → resolve p d = some (.obj ms) → resolve b d = none →
    (delete b).runOn d' = (.ok (), d)
  rest : ∀ q, Diverge (normal b d) (normal q d) → resolve q d' = resolve q d

/-- What deleting leaves: no member and nothing else changed, or the items behind an item one place further down. -/
structure Deleted (b : Locator) (d d' : Json) : Prop where
  member : ∀ p s ms, b = p ++ [s] → resolve p d = some (.obj ms) →
    resolve b d' = none ∧ ∀ q, Diverge (normal b d) (normal q d) → resolve q d' = resolve q d
  item : ∀ p s items, b = p ++ [s] → resolve p d = some (.arr items) →
    ∃ n rest, s.index? = some n ∧ n < items.length ∧ resolve p d' = some (.arr rest) ∧ rest.length + 1 = items.length ∧
      ∀ m, rest[m]? = if m < n then items[m]? else items[m + 1]?

theorem stored (ho : d.Ordered) (h : (put b value).runOn d = (.ok (), d')) : Stored b value d d' := by
  obtain ⟨⟨node, hv, hw⟩, hd'⟩ := runOn_put_ok.mp h
  constructor
  · exact ⟨node, hv, by rw [runOn_valueAt, Locator.write?_resolve hw]⟩
  · intro other d''
    rw [runOn_put_ok, runOn_put_ok]
    simp only [Locator.write?_write? hw]
  · intro p s ms hb hp habsent
    subst hb
    exact (delete_ok hd').mpr (Locator.remove?_write? ho hp habsent hw)
  · exact fun q hq => Locator.write?_parted hw hq

theorem deleted (hd : d.Sound) (ho : d.Ordered) (h : (delete b).runOn d = (.ok (), d')) : Deleted b d d' := by
  have hr := (delete_ok hd).mp h
  constructor
  · intro p s ms hb hp
    subst hb
    exact ⟨Locator.remove?_member ho hp hr, fun q hq => Locator.remove?_parted hp hr hq⟩
  · intro p s items hb hp
    subst hb
    obtain ⟨n, hn, hlt, hrest⟩ := Locator.remove?_item hp hr
    refine ⟨n, _, hn, hlt, hrest, ?_, fun m => List.getElem?_eraseIdx⟩
    rw [List.length_eraseIdx, if_pos hlt]
    omega

/-- Reading, setting and deleting go together as on a store, whichever way a place is spelled. -/
theorem store_lawful (hd : d.Sound) (ho : d.Ordered) (b : Locator) :
    (∀ value d', (put b value).runOn d = (.ok (), d') → Stored b value d d') ∧
      (∀ value, (valueAt b).runOn d = (.ok value, d) → (put b (.tree value.content)).runOn d = (.ok (), d)) ∧
      ∀ d', (delete b).runOn d = (.ok (), d') → Deleted b d d' := by
  refine ⟨fun value d' h => stored ho h, fun value h => ?_, fun d' h => deleted hd ho h⟩
  rw [runOn_valueAt] at h
  cases hr : resolve b d with
  | none =>
    rw [hr] at h
    cases h
  | some node =>
    rw [hr] at h
    cases h
    exact runOn_put_ok.mpr ⟨⟨node, rfl, Locator.write?_same ho hr⟩, hd⟩

/-- The item of `[{"0": "x"}, null]` that the key `+0` finds, its member that the index 0 names, and the item beside it. -/
theorem store_lawful_spelled :
    let d : Json := .arr [.obj [("0", .str "x")], .null]
    let d' : Json := .arr [.obj [("0", .str "y")], .null]
    let b : Locator := [.key "+0", .index 0]
    (put b (.text "y")).runOn d = (.ok (), d') ∧
      (valueAt b).runOn d' = (.ok ⟨.str "y", b.display⟩, d') ∧
      resolve [.key "01"] d' = resolve [.key "01"] d ∧
      (put b (.tree (.str "x"))).runOn d = (.ok (), d) := by
  intro d d' b
  obtain ⟨hset, hsame, -⟩ := store_lawful (by decide : d.Sound) (by decide : d.Ordered) b
  have hput : (put b (.text "y")).runOn d = (.ok (), d') := runOn_put_ok.mpr ⟨⟨.str "y", rfl, by decide⟩, by decide⟩
  have hstored := hset _ _ hput
  obtain ⟨node, hnode, hread⟩ := hstored.read
  cases hnode
  exact ⟨hput, hread, hstored.rest [.key "01"] ⟨by decide, by decide⟩,
    hsame ⟨.str "x", b.display⟩ (by rw [runOn_valueAt]; rfl)⟩

end DocExpand.Edit
