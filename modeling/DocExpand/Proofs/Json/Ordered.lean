/-
  DocExpand.Proofs.Json.Ordered — every object keeps its members in ascending order.

  Reading bytes, reading a parameter and laying one object over another make ordered trees
  (`decode_ordered`, `Yaml.toJson_ordered`, `mergeMembers_ordered`), and an ordered tree with
  one node changed is ordered when the new node is (`Locator.modify?_ordered`).
-/

import DocExpand.Json.Merge
import DocExpand.Json.Reader
import DocExpand.Proofs.Locator.Store
import DocExpand.Yaml.Basic

namespace DocExpand

namespace Json

variable {d d' : Json} {ms : Members Json} {key : String} {value : Json}

mutual

/-- The order of a given tree can be checked. -/
def decideOrdered : (d : Json) → Decidable d.Ordered
  | arr items => decideOrderedItems items
  | obj members => @instDecidableAnd _ _ _ (decideOrderedMembers members)
  | null | bool _ | num _ | str _ => isTrue trivial

def decideOrderedItems : (items : List Json) → Decidable (OrderedItems items)
  | [] => isTrue trivial
  | item :: rest => @instDecidableAnd _ _ (decideOrdered item) (decideOrderedItems rest)

def decideOrderedMembers : (members : List (String × Json)) → Decidable (OrderedMembers members)
  | [] => isTrue trivial
  | (_, value) :: rest => @instDecidableAnd _ _ (decideOrdered value) (decideOrderedMembers rest)

end

instance : DecidablePred Ordered := decideOrdered

/-! ## Parts -/

theorem orderedItems_iff {items : List Json} : OrderedItems items ↔ ∀ item ∈ items, item.Ordered := by
  induction items with
  | nil => simp [OrderedItems]
  | cons item rest ih => rw [OrderedItems, ih, List.forall_mem_cons]

theorem orderedMembers_iff {members : List (String × Json)} : OrderedMembers members ↔ ∀ m ∈ members, m.2.Ordered := by
  induction members with
  | nil => simp [OrderedMembers]
  | cons m rest ih =>
    obtain ⟨key, value⟩ := m
    rw [OrderedMembers, ih, List.forall_mem_cons]

theorem ordered_arr {items : List Json} : (arr items).Ordered ↔ ∀ item ∈ items, item.Ordered := orderedItems_iff

theorem ordered_obj : (obj ms).Ordered ↔ Members.Ascending ms ∧ ∀ m ∈ ms, m.2.Ordered := by
  rw [Ordered, orderedMembers_iff]

theorem Ordered.insert (h : (obj ms).Ordered) (hv : value.Ordered) (key : String) :
    (obj (Members.insert key value ms)).Ordered := by
  rw [ordered_obj] at h ⊢
  refine ⟨h.1.insert, fun m hm => ?_⟩
  rcases mem_insert hm with rfl | hm
  · exact hv
  · exact h.2 m hm

theorem Ordered.erase (h : (obj ms).Ordered) (key : String) : (obj (Members.erase key ms)).Ordered := by
  rw [ordered_obj] at h ⊢
  exact ⟨h.1.erase, fun m hm => h.2 m (Members.erase_sublist.mem hm)⟩

theorem Ordered.get? (h : (obj ms).Ordered) (hg : Members.get? key ms = some value) : value.Ordered :=
  (ordered_obj.mp h).2 _ (Members.mem_of_get? hg)

theorem Ordered.child? {s : Segment} {c : Json} (h : d.Ordered) (hc : d.child? s = some c) : c.Ordered := by
  cases d with
  | null | bool _ | num _ | str _ => cases hc
  | obj ms => exact h.get? hc
  | arr items =>
    obtain ⟨n, -, hn⟩ := Option.bind_eq_some_iff.mp hc
    exact ordered_arr.mp h c (List.mem_of_getElem? hn)

theorem Ordered.setChild? {s : Segment} (h : d.Ordered) (hv : value.Ordered) (hs : d.setChild? s value = some d') :
    d'.Ordered := by
  cases d with
  | null | bool _ | num _ | str _ => cases hs
  | obj ms =>
    cases hs
    exact h.insert hv _
  | arr items =>
    obtain ⟨n, -, hn⟩ := Option.bind_eq_some_iff.mp hs
    split at hn
    · cases hn
      rw [ordered_arr] at h ⊢
      intro item hi
      rcases List.mem_or_eq_of_mem_set hi with hi | rfl
      · exact h item hi
      · exact hv
    · cases hn

theorem Ordered.eraseChild? {s : Segment} (h : d.Ordered) (hs : d.eraseChild? s = some d') : d'.Ordered := by
  cases d with
  | null | bool _ | num _ | str _ => cases hs
  | obj ms =>
    change (if _ then some _ else none) = _ at hs
    split at hs
    · cases hs
      exact h.erase _
    · cases hs
  | arr items =>
    obtain ⟨n, -, hn⟩ := Option.bind_eq_some_iff.mp hs
    split at hn
    · cases hn
      rw [ordered_arr] at h ⊢
      exact fun item hi => h item ((List.eraseIdx_sublist ..).mem hi)
    · cases hn

/-! ## Merging -/

mutual

theorem mergeNode_ordered (policy : MergePolicy) {old : Json} (ho : old.Ordered) : ∀ new : Json, new.Ordered →
    (mergeNode policy old new).Ordered
  | .obj incoming, hn => by
    have hkept : (if policy = .overwrite then obj incoming else old).Ordered := by
      split
      · exact hn
      · exact ho
    cases old with
    | obj existing =>
      rw [mergeNode]
      exact mergeMembers_ordered policy incoming ho fun m hm => (ordered_obj.mp hn).2 m hm
    | null | bool _ | num _ | str _ | arr _ => exact hkept
  | .null, hn | .bool _, hn | .num _, hn | .str _, hn | .arr _, hn => by
    unfold mergeNode
    split
    · exact hn
    · exact ho

theorem mergeMembers_ordered (policy : MergePolicy) : ∀ (incoming : List (String × Json)) {existing : Members Json},
    (obj existing).Ordered → (∀ m ∈ incoming, m.2.Ordered) →
    (obj (mergeMembers policy existing incoming)).Ordered
  | [], _, he, _ => he
  | (key, new) :: rest, existing, he, hi => by
    have hnew := hi (key, new) (List.mem_cons_self ..)
    rw [mergeMembers]
    refine mergeMembers_ordered policy rest (he.insert ?_ key) fun m hm => hi m (List.mem_cons_of_mem _ hm)
    split
    · rename_i old hold
      exact mergeNode_ordered policy (he.get? hold) new hnew
    · exact hnew

end

/-! ## Reading -/

/-- A token that a tree may be made of. -/
def Token.Ordered : Token → Prop
  | .scalar j => j.Ordered
  | _ => True

namespace Lexer

variable {l l' : Lexer} {c : Char}

theorem scalarOfWord?_ordered {word : List Char} {j : Json} (h : scalarOfWord? word = some j) : j.Ordered := by
  unfold scalarOfWord? at h
  split at h
  · cases h; trivial
  · split at h
    · cases h; trivial
    · split at h
      · cases h; trivial
      · obtain ⟨n, -, rfl⟩ := Option.map_eq_some_iff.mp h
        trivial

theorem start_ordered (hl : ∀ t ∈ l.tokens, t.Ordered) (h : l.start c = some l') : ∀ t ∈ l'.tokens, t.Ordered := by
  have hemit : ∀ t : Token, t.Ordered → ∀ u ∈ (l.emit t).tokens, u.Ordered :=
    fun t ht => List.forall_mem_cons.mpr ⟨ht, hl⟩
  unfold start at h
  split at h
  case h_7 => cases h; exact hl
  case h_8 =>
    split at h
    · cases h; exact hl
    · split at h
      · cases h; exact hl
      · cases h
  all_goals
    cases h
    exact hemit _ trivial

theorem closeWord_ordered {rev : List Char} (hl : ∀ t ∈ l.tokens, t.Ordered) (h : l.closeWord rev = some l') :
    ∀ t ∈ l'.tokens, t.Ordered := by
  obtain ⟨j, hj, rfl⟩ := Option.map_eq_some_iff.mp h
  exact List.forall_mem_cons.mpr ⟨scalarOfWord?_ordered hj, hl⟩

theorem step_ordered (hl : ∀ t ∈ l.tokens, t.Ordered) (h : l.step c = some l') : ∀ t ∈ l'.tokens, t.Ordered := by
  unfold step at h
  split at h
  · exact start_ordered hl h
  · split at h
    · cases h; exact hl
    · obtain ⟨l1, h1, h2⟩ := Option.bind_eq_some_iff.mp h
      exact start_ordered (closeWord_ordered hl h1) h2
  · split at h
    · cases h
      exact List.forall_mem_cons.mpr ⟨trivial, hl⟩
    · split at h
      · cases h; exact hl
      · split at h
        · cases h
        · cases h; exact hl
  · split at h
    · cases h; exact hl
    · obtain ⟨x, -, rfl⟩ := Option.map_eq_some_iff.mp h
      exact hl
  · obtain ⟨x, -, h⟩ := Option.bind_eq_some_iff.mp h
    split at h
    · cases h; exact hl
    · unfold closeUnit at h
      split at h
      · cases h; exact hl
      · split at h
        · cases h
        · cases h; exact hl
  · split at h
    · cases h; exact hl
    · cases h
  · split at h
    · cases h; exact hl
    · cases h
  · obtain ⟨x, -, h⟩ := Option.bind_eq_some_iff.mp h
    split at h
    · cases h; exact hl
    · unfold closePair at h
      split at h
      · cases h; exact hl
      · cases h

theorem run_ordered {cs : List Char} (hl : ∀ t ∈ l.tokens, t.Ordered) (h : l.run cs = some l') :
    ∀ t ∈ l'.tokens, t.Ordered := by
  induction cs generalizing l with
  | nil =>
    cases h
    exact hl
  | cons c cs ih =>
    rw [run, List.foldlM_cons] at h
    obtain ⟨l1, h1, h2⟩ := Option.bind_eq_some_iff.mp h
    exact ih (step_ordered hl h1) h2

end Lexer

theorem Token.ofChars?_ordered {cs : List Char} {ts : List Token} (h : Token.ofChars? cs = some ts) :
    ∀ t ∈ ts, t.Ordered := by
  obtain ⟨l, hl, hf⟩ := Option.bind_eq_some_iff.mp h
  have hrun := Lexer.run_ordered (fun _ ht => absurd ht List.not_mem_nil) hl
  unfold Lexer.finish at hf
  split at hf
  · cases hf
    exact fun t ht => hrun t (List.mem_reverse.mp ht)
  · obtain ⟨l', hl', rfl⟩ := Option.map_eq_some_iff.mp hf
    exact fun t ht => Lexer.closeWord_ordered hrun hl' t (List.mem_reverse.mp ht)
  · cases hf

/-- What is read so far is ordered. -/
def Frame.Ordered : Frame → Prop
  | .items rev => ∀ item ∈ rev, item.Ordered
  | .member done _ => (obj done).Ordered

def Expect.Ordered : Expect → Prop
  | .key done => (obj done).Ordered
  | .colon done _ => (obj done).Ordered
  | .after value => value.Ordered
  | _ => True

structure Reading.Ordered (r : Reading) : Prop where
  frames : ∀ f ∈ r.frames, f.Ordered
  expect : r.expect.Ordered

namespace Reading

variable {limit : Nat} {r r' : Reading} {t : Token}

theorem ordered_nil : (obj []).Ordered := ordered_obj.mpr ⟨Members.ascending_nil, fun _ h => nomatch h⟩

theorem begin?_ordered {frames : List Frame} (hf : ∀ f ∈ frames, f.Ordered) (ht : t.Ordered)
    (h : begin? limit frames t = some r') : r'.Ordered := by
  unfold begin? at h
  split at h
  · cases h
    exact ⟨hf, trivial⟩
  · cases h
    exact ⟨hf, ht⟩
  · split at h
    · cases h
      exact ⟨hf, trivial⟩
    · cases h
  · split at h
    · cases h
      exact ⟨hf, trivial⟩
    · cases h
  · cases h

theorem continue?_ordered {frames : List Frame} (hf : ∀ f ∈ frames, f.Ordered) (hv : value.Ordered)
    (h : continue? value frames t = some r') : r'.Ordered := by
  unfold continue? at h
  split at h
  · cases h
    rw [List.forall_mem_cons] at hf
    exact ⟨List.forall_mem_cons.mpr ⟨List.forall_mem_cons.mpr ⟨hv, hf.1⟩, hf.2⟩, trivial⟩
  · cases h
    rw [List.forall_mem_cons] at hf
    refine ⟨hf.2, ordered_arr.mpr fun item hi => ?_⟩
    exact List.forall_mem_cons.mpr ⟨hv, hf.1⟩ item (List.mem_reverse.mp hi)
  · cases h
    rw [List.forall_mem_cons] at hf
    exact ⟨hf.2, hf.1.insert hv _⟩
  · cases h
    rw [List.forall_mem_cons] at hf
    exact ⟨hf.2, hf.1.insert hv _⟩
  · cases h

theorem step_ordered (hr : r.Ordered) (ht : t.Ordered) (h : step limit r t = some r') : r'.Ordered := by
  obtain ⟨hf, he⟩ := hr
  unfold step at h
  split at h
  · exact begin?_ordered hf ht h
  · cases h
    exact ⟨hf, ordered_arr.mpr fun _ h => nomatch h⟩
  · have hempty : Frame.Ordered (.items []) := fun _ h => nomatch h
    exact begin?_ordered (List.forall_mem_cons.mpr ⟨hempty, hf⟩) ht h
  · cases h
    exact ⟨hf, ordered_nil⟩
  · cases h
    exact ⟨hf, ordered_nil⟩
  · rename_i hx
    cases h
    rw [hx] at he
    exact ⟨hf, he⟩
  · rename_i hx
    cases h
    rw [hx] at he
    exact ⟨List.forall_mem_cons.mpr ⟨he, hf⟩, trivial⟩
  · rename_i hx
    rw [hx] at he
    exact continue?_ordered hf he h
  · cases h

theorem run_ordered {ts : List Token} (hr : r.Ordered) (ht : ∀ t ∈ ts, t.Ordered)
    (h : ts.foldlM (step limit) r = some r') : r'.Ordered := by
  induction ts generalizing r with
  | nil =>
    cases h
    exact hr
  | cons t ts ih =>
    rw [List.foldlM_cons] at h
    obtain ⟨r1, h1, h2⟩ := Option.bind_eq_some_iff.mp h
    rw [List.forall_mem_cons] at ht
    exact ih (step_ordered hr ht.1 h1) ht.2 h2

end Reading

/-- A tree that was read from bytes is ordered. -/
theorem decode_ordered {bytes : ByteArray} {j : Json} (h : decode bytes = some j) : j.Ordered := by
  obtain ⟨text, -, h⟩ := Option.bind_eq_some_iff.mp h
  obtain ⟨ts, hts, h⟩ := Option.bind_eq_some_iff.mp h
  obtain ⟨r, hr, hf⟩ := Option.bind_eq_some_iff.mp h
  have hinit : Reading.init.Ordered := ⟨fun _ h => (nomatch h), trivial⟩
  have hord := (Reading.run_ordered hinit (Token.ofChars?_ordered hts) hr).expect
  unfold Reading.finish at hf
  split at hf
  · rename_i hx
    cases hf
    rw [hx] at hord
    exact hord
  · cases hf

end Json

/-! ## Parameters -/

namespace Yaml

mutual

theorem toJson_ordered : ∀ y : Yaml, y.toJson.Ordered
  | .null | .bool _ | .str _ => by
    unfold toJson
    trivial
  | .num n => by
    unfold toJson Num.toJson
    cases n.toNumber? <;> trivial
  | .seq items => by
    rw [toJson, Json.ordered_arr]
    exact itemsToJson_ordered items
  | .map members => by
    rw [toJson]
    exact membersToJson_ordered members Json.Reading.ordered_nil
  | .tagged _ value => by
    rw [toJson]
    exact toJson_ordered value

theorem itemsToJson_ordered : ∀ items : List Yaml, ∀ j ∈ itemsToJson items, j.Ordered
  | [] => fun _ h => nomatch h
  | item :: rest => by
    rw [itemsToJson, List.forall_mem_cons]
    exact ⟨toJson_ordered item, itemsToJson_ordered rest⟩

theorem membersToJson_ordered : ∀ (members : List (Yaml × Yaml)) {done : Members Json}, (Json.obj done).Ordered →
    (Json.obj (membersToJson members done)).Ordered
  | [], _, h => h
  | (key, value) :: rest, done, h => by
    rw [membersToJson]
    split
    · exact membersToJson_ordered rest (h.insert (toJson_ordered value) _)
    · exact membersToJson_ordered rest h

end

end Yaml

/-! ## Changes -/

namespace Locator

variable {p : Locator} {d d' n : Json} {f : Json → Option Json}

theorem resolve_ordered (h : d.Ordered) (hr : resolve p d = some n) : n.Ordered := by
  induction p generalizing d with
  | nil =>
    cases hr
    exact h
  | cons s p ih =>
    obtain ⟨c, hc, hr⟩ := Option.bind_eq_some_iff.mp hr
    exact ih (h.child? hc) hr

theorem modify?_ordered (h : d.Ordered) (hf : ∀ n m, n.Ordered → f n = some m → m.Ordered)
    (hm : modify? f p d = some d') : d'.Ordered := by
  induction p generalizing d d' with
  | nil => exact hf _ _ h hm
  | cons s p ih =>
    rw [modify?_cons] at hm
    obtain ⟨c, hc, hm⟩ := Option.bind_eq_some_iff.mp hm
    obtain ⟨c', hm, hs⟩ := Option.bind_eq_some_iff.mp hm
    exact h.setChild? (ih (h.child? hc) hm) hs

theorem write?_ordered {node : Json} (h : d.Ordered) (hn : node.Ordered) (hw : write? p node d = some d') : d'.Ordered := by
  rcases List.eq_nil_or_concat' p with rfl | ⟨q, s, rfl⟩
  · cases hw
    exact hn
  · rw [write?_snoc] at hw
    exact modify?_ordered h (fun _ _ hparent hf => hparent.setChild? hn hf) hw

theorem remove?_ordered (h : d.Ordered) (hr : remove? p d = some d') : d'.Ordered := by
  rcases List.eq_nil_or_concat' p with rfl | ⟨q, s, rfl⟩
  · cases hr
  · rw [remove?_snoc] at hr
    exact modify?_ordered h (fun _ _ hparent hf => hparent.eraseChild? hf) hr

end Locator

end DocExpand
