/-
  DocExpand.Proofs.Locator.Lenient — where a locator is read.

  An object takes a position for its numeral and an array takes a numeral for a position. So
  a locator can lead to a node by other steps than its own, each of them of the other sort
  (`exists_reads`); but not in a document where its own steps can be walked
  (`Reads.eq_of_walk`). What is written or removed through a locator changes the node, or the
  node's parent, where it is read (`written_of_write?`, `removed_of_remove?`).

  A place stays where it is, on a way of the same kinds (`Intact`), as long as nothing at or
  above it is written or removed, by however stale a locator.
-/

import DocExpand.Proofs.Locator.Assign
import Mathlib.Data.List.Forall2

namespace DocExpand

/-- The step `t` may be what is taken for `s`: itself, or a step of the other sort. -/
def Segment.Reads (t s : Segment) : Prop := t = s ∨ t.key?.isSome ≠ s.key?.isSome

namespace Json

variable {c d : Json} {s : Segment}

/-- The step that is taken for another one. -/
theorem child?_reads (h : d.child? s = some c) : ∃ t : Segment, t.Reads s ∧ d.step? t = some c ∧
    ∀ v, d.setChild? s v = d.setChild? t v := by
  cases d with
  | null | bool _ | num _ | str _ => cases h
  | obj ms =>
    refine ⟨.key s.text, ?_, h, fun _ => rfl⟩
    cases s with
    | key k => exact .inl rfl
    | index n => exact .inr Bool.false_ne_true.symm
  | arr items =>
    obtain ⟨n, hn, hc⟩ := Option.bind_eq_some_iff.mp h
    refine ⟨.index n, ?_, hc, fun v => ?_⟩
    · cases s with
      | key k => exact .inr Bool.false_ne_true
      | index m =>
        cases hn
        exact .inl rfl
    · change (s.index?.bind fun i => if i < items.length then some (Json.arr (items.set i v)) else none) = _
      rw [hn]
      rfl

end Json

namespace Locator

variable {p q w z : Locator} {doc d d' n m v : Json} {ps : Members Json} {k : String}

/-- The place `w` may be where `p` is read. -/
def Reads (w p : Locator) : Prop := List.Forall₂ Segment.Reads w p

theorem Reads.length_eq (h : Reads w p) : w.length = p.length := List.Forall₂.length_eq h

/-- Where its own steps can be walked, a locator is read there. -/
theorem Reads.eq_of_walk (h : Reads w p) (hw : walk w d = some n) (hp : walk p d = some m) : w = p := by
  induction h generalizing d with
  | nil => rfl
  | @cons t s w p hts _ ih =>
    obtain ⟨c, hc, hw⟩ := Option.bind_eq_some_iff.mp hw
    obtain ⟨c', hc', hp⟩ := Option.bind_eq_some_iff.mp hp
    have hsame : t = s := by
      refine hts.resolve_right fun hsort => ?_
      cases d <;> cases t <;> cases s <;> first | cases hc | cases hc' | exact hsort rfl
    subst hsame
    rw [hc] at hc'
    cases hc'
    rw [ih hw hp]

/-- A locator that leads to a node is read somewhere. -/
theorem exists_reads (h : resolve p d = some n) :
    ∃ w, Reads w p ∧ walk w d = some n ∧ ∀ f, modify? f p d = modify? f w d := by
  induction p generalizing d with
  | nil =>
    cases h
    exact ⟨[], .nil, rfl, fun _ => rfl⟩
  | cons s p ih =>
    obtain ⟨c, hc, hr⟩ := Option.bind_eq_some_iff.mp h
    obtain ⟨w, hw, hn, hf⟩ := ih hr
    obtain ⟨t, ht, hstep, hset⟩ := Json.child?_reads hc
    refine ⟨t :: w, .cons ht hw, ?_, fun f => ?_⟩
    · rw [walk_cons, hstep, Option.bind_some, hn]
    · rw [modify?_cons, modify?_cons, hc, Json.child?_of_step? hstep, Option.bind_some, Option.bind_some, hf]
      exact Option.bind_congr fun c' _ => hset c'

theorem walk_of_prefix (h : walk p d = some n) (hq : q <+: p) : ∃ m, walk q d = some m := by
  obtain ⟨r, rfl⟩ := hq
  rw [walk_append] at h
  obtain ⟨m, hm, -⟩ := Option.bind_eq_some_iff.mp h
  exact ⟨m, hm⟩

/-! ## Writing and removing -/

/-- A node was written through a locator. -/
inductive Written (p : Locator) (v d d' : Json) : Prop
  | there {w : Locator} {n : Json} : Reads w p → walk w d = some n → resolve p d = some n → replace? w v d = some d' →
      Written p v d d'
  | added {q w : Locator} {s : Segment} {ms : Members Json} : p = q ++ [s] → Reads w q → walk w d = some (.obj ms) →
      resolve p d = none → Members.get? s.text ms = none →
      replace? w (.obj (Members.insert s.text v ms)) d = some d' → Written p v d d'

theorem written_of_write? (h : write? p v d = some d') : Written p v d d' := by
  cases hr : resolve p d with
  | some n =>
    obtain ⟨w, hw, hn, hf⟩ := exists_reads hr
    rw [write?_eq_replace? hr, replace?, hf] at h
    exact .there hw hn hr h
  | none =>
    rcases List.eq_nil_or_concat' p with rfl | ⟨q, s, rfl⟩
    · cases hr
    · rw [write?_snoc] at h
      obtain ⟨parent, changed, hq, hset, -⟩ := modify?_eq_some h
      have hchild := hr
      rw [resolve_snoc, hq, Option.bind_some] at hchild
      obtain ⟨w, hw, hn, hf⟩ := exists_reads hq
      rw [hf, modify?_congr (resolve_of_walk hn) (g := fun _ => some changed) hset] at h
      cases parent with
      | null | bool _ | num _ | str _ => cases hset
      | obj ms =>
        cases hset
        exact .added rfl hw hn hr hchild h
      | arr items =>
        -- an array takes no new item
        obtain ⟨n, hi, hset⟩ := Option.bind_eq_some_iff.mp hset
        split at hset
        · rename_i hlt
          change s.index?.bind _ = none at hchild
          rw [hi, Option.bind_some, List.getElem?_eq_getElem hlt] at hchild
          cases hchild
        · cases hset

/-- A node was removed through a locator. -/
inductive Removed (p : Locator) (d d' : Json) : Prop
  | member {q w : Locator} {s : Segment} {ms : Members Json} : p = q ++ [s] → Reads w q → walk w d = some (.obj ms) →
      replace? w (.obj (Members.erase s.text ms)) d = some d' → Removed p d d'
  | item {q w : Locator} {s : Segment} {items : List Json} {n : Nat} : p = q ++ [s] → Reads w q →
      walk w d = some (.arr items) → replace? w (.arr (items.eraseIdx n)) d = some d' → Removed p d d'

theorem removed_of_remove? (hne : p ≠ []) (h : remove? p d = some d') : Removed p d d' := by
  rcases List.eq_nil_or_concat' p with rfl | ⟨q, s, rfl⟩
  · exact absurd rfl hne
  · rw [remove?_snoc] at h
    obtain ⟨parent, changed, hq, herase, -⟩ := modify?_eq_some h
    obtain ⟨w, hw, hn, hf⟩ := exists_reads hq
    rw [hf, modify?_congr (resolve_of_walk hn) (g := fun _ => some changed) herase] at h
    cases parent with
    | null | bool _ | num _ | str _ => cases herase
    | obj ms =>
      change (if _ then some _ else none) = some changed at herase
      split at herase
      · cases herase
        exact .member rfl hw hn h
      · cases herase
    | arr items =>
      obtain ⟨n, -, herase⟩ := Option.bind_eq_some_iff.mp herase
      split at herase
      · cases herase
        exact .item rfl hw hn h
      · cases herase

/-- A replaced node has its own places, and the others keep theirs. -/
theorem replace?_walk (hw : walk w d = some n) (h : replace? w v d = some d') :
    (∀ r, walk (w ++ r) d' = walk r v) ∧ ∀ p, ¬ w <+: p → Retains p d d' := by
  obtain ⟨m, hm, hat, hkept, -⟩ := modify?_walk hw h
  cases hm
  exact ⟨hat, hkept⟩

/-! ## Places that stay -/

/-- The way to a place leads over nodes of the same kinds in both documents. -/
def Intact (p : Locator) (doc d : Json) : Prop :=
  ∀ q, q <+: p → ∃ n m, walk q doc = some n ∧ walk q d = some m ∧ m.kind = n.kind

theorem intact_refl (h : walk p doc = some n) : Intact p doc doc := by
  intro q hq
  obtain ⟨m, hm⟩ := walk_of_prefix h hq
  exact ⟨m, m, hm, hm, rfl⟩

theorem Intact.retained (h : Intact p doc d) (hr : ∀ q, q <+: p → Retains q d d') : Intact p doc d' := by
  intro q hq
  obtain ⟨n, m, hn, hm, hkind⟩ := h q hq
  obtain ⟨m', hm', hkept⟩ := (hr q hq).there m hm
  exact ⟨n, m', hn, hm', hkept.kind.trans hkind⟩

theorem Intact.written (h : Intact p doc d) (hz : walk z doc = some n) (hnot : ¬ z <+: p) (hw : Written z v d d') :
    Intact p doc d' := by
  cases hw with
  | @there w _ hread hn _ hrep =>
    have hp : ¬ w <+: p := by
      intro hp
      obtain ⟨m, -, hm, -, -⟩ := h w hp
      exact hnot (hread.eq_of_walk hm hz ▸ hp)
    exact h.retained fun q hq => (replace?_walk hn hrep).2 q fun hwq => hp (hwq.trans hq)
  | @added q w s ms _ _ hn _ habsent hrep =>
    intro x hx
    by_cases hwx : w <+: x
    · obtain ⟨m, m', hm, hm', hkind⟩ := h x hx
      obtain ⟨r, rfl⟩ := hwx
      rw [walk_append, hn, Option.bind_some] at hm'
      refine ⟨m, ?_⟩
      rw [(replace?_walk hn hrep).1]
      cases r with
      | nil =>
        cases hm'
        exact ⟨_, hm, rfl, hkind⟩
      | cons t r =>
        obtain ⟨c, hc, hr⟩ := Option.bind_eq_some_iff.mp hm'
        cases t with
        | index j => cases hc
        | key l =>
          have hne : s.text ≠ l := by
            intro he
            rw [he] at habsent
            exact absurd (habsent.symm.trans hc) (by simp)
          refine ⟨m', hm, ?_, hkind⟩
          rw [walk_cons]
          change (Members.get? l (Members.insert s.text v ms)).bind _ = _
          rw [Members.get?_insert_of_ne hne]
          exact hm'
    · obtain ⟨m, m', hm, hm', hkind⟩ := h x hx
      obtain ⟨m'', hm'', hkept⟩ := ((replace?_walk hn hrep).2 x hwx).there m' hm'
      exact ⟨m, m'', hm, hm'', hkept.kind.trans hkind⟩

theorem Intact.removed (h : Intact p doc d) (hq : walk q doc = some (.obj ps)) (hnot : ¬ q ++ [.key k] <+: p)
    (hr : Removed (q ++ [.key k]) d d') : Intact p doc d' := by
  cases hr with
  | @member q' w s ms heq hread hn hrep =>
    obtain ⟨rfl, hs⟩ := List.append_inj' heq rfl
    cases hs
    intro x hx
    by_cases hwx : w <+: x
    · obtain ⟨m, m', hm, hm', hkind⟩ := h x hx
      obtain ⟨r, rfl⟩ := hwx
      obtain ⟨y, hy⟩ := walk_of_prefix hm (List.prefix_append w r)
      have hwq := hread.eq_of_walk hy hq
      rw [walk_append, hn, Option.bind_some] at hm'
      refine ⟨m, ?_⟩
      rw [(replace?_walk hn hrep).1]
      cases r with
      | nil =>
        cases hm'
        exact ⟨_, hm, rfl, hkind⟩
      | cons t r =>
        obtain ⟨c, hc, hr⟩ := Option.bind_eq_some_iff.mp hm'
        cases t with
        | index j => cases hc
        | key l =>
          have hne : k ≠ l := by
            intro he
            refine hnot (List.IsPrefix.trans ?_ hx)
            rw [hwq, he]
            exact ⟨r, by simp⟩
          refine ⟨m', hm, ?_, hkind⟩
          rw [walk_cons]
          change (Members.get? l (Members.erase k ms)).bind _ = _
          rw [Members.get?_erase_of_ne hne]
          exact hm'
    · obtain ⟨m, m', hm, hm', hkind⟩ := h x hx
      obtain ⟨m'', hm'', hkept⟩ := ((replace?_walk hn hrep).2 x hwx).there m' hm'
      exact ⟨m, m'', hm, hm'', hkept.kind.trans hkind⟩
  | @item q' w s items j heq hread hn hrep =>
    obtain ⟨rfl, -⟩ := List.append_inj' heq rfl
    have hp : ¬ w <+: p := by
      intro hp
      obtain ⟨m, m', hm, hm', hkind⟩ := h w hp
      rw [hread.eq_of_walk hm hq, hq] at hm
      cases hm
      rw [hn] at hm'
      cases hm'
      cases hkind
    exact h.retained fun x hx => (replace?_walk hn hrep).2 x fun hwx => hp (hwx.trans hx)

end Locator

end DocExpand
