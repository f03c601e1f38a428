/-
  DocExpand.Proofs.Engine.Frame — what one application leaves alone.

  Whatever its verb, an invocation that a scan found changes the document at its host and
  takes its argument sibling, and that is all (`apply_frame`): it puts one value in the
  host's place, or removes the host where a choice without its arm is a member (`Rehosted`),
  and then removes the sibling, if it has one (`Unsided`). Every other node stays where it
  is and as it is, and no array loses, gets or moves an element (`Framed`).
-/

import DocExpand.Proofs.Engine.Landed

namespace DocExpand.Engine

variable {e : Engine} {doc d d' d1 : Json} {found : List Invocation} {i : Invocation} {v : Directive} {key : String}
  {written : Json} {ms : Members Json} {slot : Slot} {p s : Locator} {items : List Json} {n : Nat}

/-! ## The change -/

/-- Another value in the host's place, or nothing where a choice without its arm is a member. -/
inductive Rehosted (i : Invocation) (d : Json) : Json → Prop
  | replaced {node d1 : Json} : Locator.replace? i.host node d = some d1 → Rehosted i d d1
  | removed {q : Locator} {k : String} {d1 : Json} :
    Armless i d → i.host = q ++ [.key k] → Locator.remove? i.host d = some d1 → Rehosted i d d1

/-- The argument sibling is removed, where the invocation has one. -/
inductive Unsided (e : Engine) (i : Invocation) (d : Json) : Json → Prop
  | alone : i.argumentSibling? = none → Unsided e i d d
  | taken {q : Locator} {k : String} {d' : Json} :
    i.host = q ++ [.key k] → i.argumentSibling? = some (q ++ [.key (k ++ e.config.argsSuffix)]) →
      Locator.remove? (q ++ [.key (k ++ e.config.argsSuffix)]) d = some d' → Unsided e i d d'

namespace Ready

variable (h : Ready e doc i v key written ms doc)

include h

theorem rehosted (hout : e.outcome true v i.host key written (Locator.resolve i.input doc) ms = some slot)
    (hplace : place i.host slot doc = some d1) : Rehosted i doc d1 := by
  cases slot with
  | some node => exact .replaced hplace
  | none =>
    have harm := (h.armless hout).mp rfl
    rcases List.eq_nil_or_concat' i.host with hhost | ⟨q, last, hhost⟩
    · rw [hhost] at hplace
      cases hplace
    · rw [place, hhost, List.getLast?_concat, ← hhost] at hplace
      cases last with
      | key k => exact .removed harm hhost hplace
      | index n => exact .replaced hplace

/-- What stands at the host does not matter to the sibling beside it. -/
theorem unsided (hsuffix : e.config.argsSuffix ≠ "") (hplace : place i.host slot doc = some d1) :
    Unsided e i d1 (swept i d1) := by
  cases hs : i.argumentSibling? with
  | none =>
    have hswept : swept i d1 = d1 := by rw [swept, hs, Option.bind_none, Option.getD_none]
    rw [hswept]
    exact .alone hs
  | some s =>
    obtain ⟨q, k, hhost, rfl, hthere⟩ := h.sibling_eq hs
    have hw := h.there
    rw [hhost, Locator.walk_snoc] at hw
    obtain ⟨parent, hp, hc⟩ := Option.bind_eq_some_iff.mp hw
    cases parent with
    | null | bool _ | num _ | str _ | arr _ => cases hc
    | obj ps =>
      have hr := Locator.resolve_of_walk hp
      rw [hhost, place_member hr hc] at hplace
      obtain ⟨d2, h2, hr2⟩ := replace?_isSome hr (.obj (Members.put k slot ps))
      cases h2.symm.trans hplace
      have hsame : Locator.resolve (q ++ [.key (e.siblingKey k)]) d1 = Locator.resolve (q ++ [.key (e.siblingKey k)]) doc := by
        rw [Locator.resolve_snoc, Locator.resolve_snoc, hr, hr2]
        exact Members.get?_put_of_ne (siblingKey_ne hsuffix k).symm slot
      have hgone := Locator.remove?_isSome (p := q ++ [.key (e.siblingKey k)]) (by simp) d1
      rw [hsame, hthere] at hgone
      obtain ⟨d3, h3⟩ := Option.isSome_iff_exists.mp hgone
      have hswept : swept i d1 = d3 := by rw [swept, hs, Option.bind_some, h3, Option.getD_some]
      rw [hswept]
      exact .taken hhost hs h3

end Ready

/-! ## The frame -/

/-- A place that is not in the host, nor in the argument sibling. -/
structure Spared (i : Invocation) (p : Locator) : Prop where
  host : ¬ i.host <+: p
  sibling : ∀ s, i.argumentSibling? = some s → ¬ s <+: p

/-- Nodes elsewhere are the same, and so are those around the host but for what is in them on the way to it. -/
structure Framed (i : Invocation) (d d' : Json) : Prop where
  others : ∀ p, Spared i p → ¬ p <+: i.host → Locator.walk p d' = Locator.walk p d
  around : ∀ p, Spared i p → p <+: i.host → Locator.Retains p d d'
  arrays : ∀ p items, Spared i p → Locator.walk p d = some (.arr items) →
    ∃ items', Locator.walk p d' = some (.arr items') ∧ items'.length = items.length ∧
      ∀ n, ¬ p ++ [.index n] <+: i.host → items'[n]? = items[n]?

/-- An element is spared with its array, or it is the host. -/
theorem Spared.item (hp : Spared i p) (hs : ∀ s, i.argumentSibling? = some s → ∃ q k, s = q ++ [.key k])
    (hne : i.host ≠ p ++ [.index n]) : Spared i (p ++ [.index n]) := by
  refine ⟨Locator.not_prefix_snoc hp.host hne, fun s hsib => Locator.not_prefix_snoc (hp.sibling s hsib) fun heq => ?_⟩
  obtain ⟨q, k, rfl⟩ := hs s hsib
  cases (List.append_inj' heq rfl).2

/-- No position of an array is lost: at the host there is an element still, and every other one is kept. -/
theorem Left.item_there (h : Left i slot d d') (hs : ∀ s, i.argumentSibling? = some s → ∃ q k, s = q ++ [.key k])
    (hp : Spared i p) {x : Json} (hx : Locator.walk (p ++ [.index n]) d = some x) :
    (Locator.walk (p ++ [.index n]) d').isSome = true := by
  by_cases hhost : i.host = p ++ [.index n]
  · have hhere := h.here []
    rw [List.append_nil, hhost, seat, List.getLast?_concat] at hhere
    rw [hhere]
    rfl
  · have hitem := hp.item hs hhost
    obtain ⟨x', hx', -⟩ := (h.frame _ hitem.host hitem.sibling).there x hx
    rw [hx']
    rfl

theorem Left.array (h : Left i slot d d') (hs : ∀ s, i.argumentSibling? = some s → ∃ q k, s = q ++ [.key k])
    (hp : Spared i p) (hw : Locator.walk p d = some (.arr items)) :
    ∃ items', Locator.walk p d' = some (.arr items') ∧ items'.length = items.length ∧
      ∀ n, ¬ p ++ [.index n] <+: i.host → items'[n]? = items[n]? := by
  obtain ⟨node, hw', hkept⟩ := (h.frame p hp.host hp.sibling).there _ hw
  have hkind := hkept.kind
  cases node with
  | null | bool _ | num _ | str _ | obj _ => cases hkind
  | arr items' =>
    have hitem : ∀ n, Locator.walk (p ++ [.index n]) d = items[n]? := fun n => by
      rw [Locator.walk_snoc, hw]
      rfl
    have hitem' : ∀ n, Locator.walk (p ++ [.index n]) d' = items'[n]? := fun n => by
      rw [Locator.walk_snoc, hw']
      rfl
    have hlt : ∀ (n : Nat) (items : List Json), n < items.length ↔ items[n]?.isSome = true := by simp
    -- the array is kept, so it has no new position; and no position of it is lost
    refine ⟨items', hw', eq_of_forall_lt_iff fun n => ?_, fun n hn => ?_⟩
    · rw [hlt, hlt]
      constructor
      · exact hkept.steps (.index n)
      · intro hx
        obtain ⟨x, hx⟩ := Option.isSome_iff_exists.mp hx
        rw [← hitem']
        exact h.item_there hs hp ((hitem n).trans hx)
    · have hspared := hp.item hs fun heq => hn (heq ▸ List.prefix_rfl)
      rw [← hitem, ← hitem']
      exact h.same _ hspared.host hn hspared.sibling

theorem Left.framed (h : Left i slot d d') (hs : ∀ s, i.argumentSibling? = some s → ∃ q k, s = q ++ [.key k]) :
    Framed i d d' :=
  ⟨fun p hp hout => h.same p hp.host hout hp.sibling, fun p hp _ => h.frame p hp.host hp.sibling,
    fun _ _ hp hw => h.array hs hp hw⟩

/-- Applying an invocation of a scan puts a value in its host's place, or removes the host if it is a choice without its
    arm and a member; then its argument sibling goes, and nothing else has changed. -/
theorem apply_frame (hsuffix : e.config.argsSuffix ≠ "") (hd : doc.Sound) (ho : doc.Ordered)
    (hscan : e.scan doc = .ok found) (hi : i ∈ found) (ha : (e.apply i).runOn doc = (.ok (), d')) :
    (∃ d1, Rehosted i doc d1 ∧ Unsided e i d1 d') ∧ Framed i doc d' := by
  have hscanned : e.Scanned doc found := ⟨ho, hsuffix, hscan⟩
  obtain ⟨target, v, key, written, ms, -, -, h⟩ := hscanned.ready_found hd hi
  obtain ⟨slot, d1, hout, -, hplace, rfl⟩ := (h.apply_iff hd).mp ha
  obtain ⟨left, -, hleft⟩ := h.applied hsuffix hd ho ha
  refine ⟨⟨d1, h.rehosted hout hplace, h.unsided hsuffix hplace⟩, hleft.framed fun s hs => ?_⟩
  obtain ⟨q, k, -, rfl, -⟩ := h.sibling_eq hs
  exact ⟨q, _, rfl⟩

/-- A choice whose condition stands beside it, and says that it has gone. -/
def sided : Json := .obj [
  ("a", .obj [("kubegen.Null.If", .bool true)]), ("a_args", .bool false), ("b", .arr [.null])]

theorem apply_frame_sided :
    ∃ choice, plain.scan sided = .ok [choice] ∧
      (plain.apply choice).runOn sided = (.ok (), .obj [("b", .arr [.null])]) ∧
      (∃ d1, Rehosted choice sided d1 ∧ Unsided plain choice d1 (.obj [("b", .arr [.null])])) ∧
      Framed choice sided (.obj [("b", .arr [.null])]) := by
  have hd : sided.Sound := by decide
  have ho : sided.Ordered := by decide
  have hscan : ∃ choice, plain.scan sided = .ok [choice] ∧
      (plain.apply choice).runOn sided = (.ok (), .obj [("b", .arr [.null])]) := ⟨_, rfl, rfl⟩
  obtain ⟨choice, hscan, hrun⟩ := hscan
  exact ⟨choice, hscan, hrun, apply_frame (by decide +kernel) hd ho hscan (List.mem_singleton_self choice) hrun⟩

end DocExpand.Engine
