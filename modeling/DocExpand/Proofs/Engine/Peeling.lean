/-
  DocExpand.Proofs.Engine.Peeling — every pass takes a layer of choices away.

  During a pass no shaped key has more arms around it than the deepest one had before, and
  one that has as many still waits for a turn: of its own invocation, or of a choice around
  it (`Peeling`). Whatever a turn finds, it keeps that so (`Scanned.peeling_acted`), as long
  as neither parameters nor imports have shaped keys. In the end nothing waits any more, so a
  pass leaves fewer arms around every shaped key (`runPass_shallow`), and an expansion takes
  no more passes than there are arms around the deepest one, and one more (`expand_peels`).
-/

import DocExpand.Proofs.Engine.Limit
import DocExpand.Proofs.Engine.Stale

namespace DocExpand.Engine

variable {e : Engine} {doc now d d' n v : Json} {found before after pending rest : List Invocation} {i j : Invocation}
  {p q w u u' c : Locator} {k : String} {limit : Nat}

/-! ## Choices around a place -/

/-- The invocation is a choice, and the way to a place enters one of its arms. -/
structure Around (e : Engine) (i : Invocation) (p : Locator) : Prop where
  own : ∃ k, i.branch = i.host ++ [.key k] ∧ e.choosing k = true
  arm : ∃ arm, isArm arm = true ∧ i.host ++ [.key arm] <+: p

theorem Around.mono (h : e.Around i p) (hp : p <+: q) : e.Around i q := by
  obtain ⟨arm, harm, hin⟩ := h.arm
  exact ⟨h.own, arm, harm, hin.trans hp⟩

theorem Around.choiceAt (h : e.Around i p) : e.choiceAt d i.host = true ↔ e.Keyed d i.branch := by
  obtain ⟨k, hbranch, hk⟩ := h.own
  rw [choiceAt_iff, hbranch]
  constructor
  · intro hc
    obtain ⟨l, hl, hkeyed⟩ := hc
    rwa [choosing_inj hk hl]
  · intro hkeyed
    exact ⟨k, hk, hkeyed⟩

theorem arms_le (h : ∀ q s, q ++ [s] <+: p → e.choiceAt d' q = true → e.choiceAt d q = true) :
    e.arms d' p ≤ e.arms d p := by
  have hle : e.armsFrom d' [] p ≤ e.armsFrom d [] p := armsFrom_le h
  exact hle

theorem arms_snoc (s : Segment) :
    e.arms d (p ++ [s]) = e.arms d p + if e.choiceAt d p && s.key?.any isArm then 1 else 0 := by
  rw [arms, armsFrom_append, armsFrom, armsFrom, Nat.add_zero, List.nil_append]
  rfl

/-- An item is no arm. -/
theorem arms_item (m : Nat) : e.arms d (p ++ [.index m]) = e.arms d p := by
  rw [arms_snoc]
  simp [Segment.key?]

theorem Around.of_item {m : Nat} (h : e.Around i (p ++ [.index m])) : e.Around i p := by
  obtain ⟨arm, harm, hp⟩ := h.arm
  refine ⟨h.own, arm, harm, ?_⟩
  rcases List.prefix_concat_iff.mp hp with heq | hp
  · cases (List.append_inj' heq rfl).2
  · exact hp

/-- With the choice its arms are gone. -/
theorem Around.lt (h : e.Around i p) (hless : ∀ q s, q ++ [s] <+: p → e.choiceAt d' q = true → e.choiceAt d q = true)
    (hold : e.Keyed d i.branch) (hnew : ¬ e.Keyed d' i.branch) : e.arms d' p < e.arms d p := by
  obtain ⟨arm, harm, hp⟩ := h.arm
  have hlt : e.armsFrom d' [] p < e.armsFrom d [] p :=
    armsFrom_lt hless harm hp (h.choiceAt.mpr hold) (Bool.eq_false_iff.mpr fun hc => hnew (h.choiceAt.mp hc))
  exact hlt

theorem Keyed.host_walk (h : e.Keyed d i.branch) : ∃ ms, Locator.walk i.host d = some (.obj ms) := by
  obtain ⟨⟨q, k, hq, -⟩, n, hn⟩ := h
  rw [hq] at hn
  rw [Invocation.host, hq, List.dropLast_concat]
  exact Locator.walk_parent hn

theorem Keyed.branch_eq (h : e.Keyed d i.branch) : ∃ k, i.branch = i.host ++ [.key k] := by
  obtain ⟨q, k, hq, -⟩ := h.named
  exact ⟨k, by rw [Invocation.host, hq, List.dropLast_concat]⟩

/-! ## Keys that wait -/

/-- The shaped key at a place has the turn of its invocation before it, or that of a choice around it. -/
def Waits (e : Engine) (pending : List Invocation) (d : Json) (p : Locator) : Prop :=
  ∃ i ∈ pending, i.branch = p ∨ e.Around i p ∧ e.Keyed d i.branch

structure PeelingAt (e : Engine) (limit : Nat) (pending : List Invocation) (d : Json) (p : Locator) : Prop where
  bound : e.arms d p ≤ limit
  waits : e.arms d p = limit → Waits e pending d p

/-- Shaped keys have no more arms around them than the limit, and wait if they have as many. -/
def Peeling (e : Engine) (limit : Nat) (pending : List Invocation) (d : Json) : Prop :=
  ∀ p, e.Keyed d p → PeelingAt e limit pending d p

namespace Peeling

variable (h : Peeling e limit pending d)

include h

/-- A key that stays where it is, with no new choice around it. -/
theorem kept (hk : e.Keyed d p) (hk' : e.Keyed d' p)
    (hless : ∀ q s, q ++ [s] <+: p → e.choiceAt d' q = true → e.choiceAt d q = true)
    (hrest : ∀ j ∈ pending, ∀ s, j.host ++ [s] <+: p → e.Keyed d j.branch → e.Keyed d' j.branch → j ∈ rest) :
    PeelingAt e limit rest d' p := by
  have hle := arms_le hless
  obtain ⟨hbound, hwaits⟩ := h p hk
  refine ⟨hle.trans hbound, fun heq => ?_⟩
  obtain ⟨j, hj, rfl | ⟨hround, hthere⟩⟩ := hwaits (by omega)
  · obtain ⟨k, hbranch⟩ := hk.branch_eq
    exact ⟨j, hrest j hj (.key k) (by rw [← hbranch]) hk hk', .inl rfl⟩
  · by_cases hstill : e.Keyed d' j.branch
    · obtain ⟨arm, -, hp⟩ := hround.arm
      exact ⟨j, hrest j hj (.key arm) hp hthere hstill, .inr ⟨hround, hstill⟩⟩
    · have := hround.lt hless hthere hstill
      omega

/-- A key that comes from beneath `u` to beneath `u'`. -/
theorem moved (hk : e.Keyed d' (u' ++ c)) (hc : c ≠ []) (hsame : ∀ r, Locator.walk (u' ++ r) d' = Locator.walk (u ++ r) d)
    (hle : e.arms d' u' ≤ e.arms d u) (hin : ∀ j ∈ pending, ¬ u <+: j.host)
    (hout : ∀ j ∈ pending, e.Around j u → e.Keyed d j.branch →
      e.arms d' u' < e.arms d u ∨ j ∈ rest ∧ e.Around j u' ∧ e.Keyed d' j.branch) :
    PeelingAt e limit rest d' (u' ++ c) := by
  have hold : e.Keyed d (u ++ c) := by
    obtain ⟨n, hn, hkn⟩ := (keyed_append hc).mp hk
    have hroot := hsame []
    rw [List.append_nil, List.append_nil, hn] at hroot
    exact (keyed_append hc).mpr ⟨n, hroot.symm, hkn⟩
  have hinner : e.armsFrom d' u' c ≤ e.armsFrom d u c := by
    refine armsFrom_le fun q s _ hq => ?_
    rwa [choiceAt, hsame] at hq
  have hsplit : ∀ d p, e.arms d (p ++ c) = e.arms d p + e.armsFrom d p c := fun d p => by
    rw [arms, armsFrom_append, List.nil_append, arms]
  obtain ⟨hbound, hwaits⟩ := h _ hold
  rw [hsplit] at hbound hwaits
  refine ⟨by rw [hsplit]; omega, fun heq => ?_⟩
  rw [hsplit] at heq
  obtain ⟨j, hj, hown | ⟨hround, hthere⟩⟩ := hwaits (by omega)
  · refine absurd ?_ (hin j hj)
    rw [Invocation.host, hown, List.dropLast_append_of_ne_nil hc]
    exact List.prefix_append ..
  · obtain ⟨arm, harm, hp⟩ := hround.arm
    have hu : e.Around j u := by
      refine ⟨hround.own, arm, harm, ?_⟩
      rcases List.prefix_or_prefix_of_prefix hp (List.prefix_append u c) with hp | hp
      · exact hp
      · rcases List.prefix_concat_iff.mp hp with hp | hp
        · rw [hp]
        · exact absurd hp (hin j hj)
    rcases hout j hj hu hthere with hlt | ⟨hrest, hu', hstill⟩
    · omega
    · exact ⟨j, hrest, .inr ⟨hu'.mono (List.prefix_append ..), hstill⟩⟩

/-- A document that has lost some of its shaped keys. -/
theorem shrunk (hkept : ∀ p, e.Keyed d' p → e.Keyed d p) (hrest : ∀ j ∈ pending, e.Keyed d' j.branch → j ∈ rest) :
    Peeling e limit rest d' := by
  intro p hk
  refine h.kept (hkept p hk) hk (fun q s _ hc => ?_) fun j hj _ _ _ => hrest j hj
  obtain ⟨k, hchoosing, hkeyed⟩ := choiceAt_iff.mp hc
  exact choiceAt_iff.mpr ⟨k, hchoosing, hkept _ hkeyed⟩

end Peeling

/-! ## One node changed -/

section Replaced

variable (hw : Locator.walk w d = some n) (hr : Locator.replace? w v d = some d')

include hw hr

/-- A shaped key was there before, or is beneath what has been put. -/
theorem keyed_of_replaced (hk : e.Keyed d' p) :
    e.Keyed d p ∧ (w <+: p → p = w) ∨ ∃ c, c ≠ [] ∧ p = w ++ c ∧ e.Keyed v c := by
  obtain ⟨hat, hkept⟩ := Locator.replace?_walk hw hr
  by_cases hp : w <+: p
  · obtain ⟨c, rfl⟩ := hp
    by_cases hc : c = []
    · subst hc
      rw [List.append_nil] at hk ⊢
      exact .inl ⟨⟨hk.named, n, hw⟩, fun _ => rfl⟩
    · obtain ⟨x, hx, hkx⟩ := (keyed_append hc).mp hk
      have hv := hat []
      rw [List.append_nil, hx] at hv
      cases hv
      exact .inr ⟨c, hc, rfl, hkx⟩
  · obtain ⟨m, hm⟩ := hk.there
    obtain ⟨m', hm', -⟩ := (hkept p hp).back m hm
    exact .inl ⟨⟨hk.named, m', hm'⟩, fun hp' => absurd hp' hp⟩

/-- Something without new shaped keys brings none. -/
theorem keyed_of_fewer (hv : ∀ c, e.Keyed v c → e.Keyed n c) (hk : e.Keyed d' p) : e.Keyed d p := by
  rcases keyed_of_replaced hw hr hk with ⟨hold, -⟩ | ⟨c, hc, rfl, hkc⟩
  · exact hold
  · exact (keyed_append hc).mpr ⟨n, hw, hv c hkc⟩

theorem choiceAt_of_replaced (hq : ¬ w <+: q) (hc : e.choiceAt d' q = true) : e.choiceAt d q = true := by
  obtain ⟨k, hchoosing, hkeyed⟩ := choiceAt_iff.mp hc
  rcases keyed_of_replaced hw hr hkeyed with ⟨hold, -⟩ | ⟨c, hne, heq, -⟩
  · exact choiceAt_iff.mpr ⟨k, hchoosing, hold⟩
  · obtain ⟨c, s, rfl⟩ := (List.eq_nil_or_concat' c).resolve_left hne
    rw [← List.append_assoc] at heq
    exact absurd ⟨c, (List.append_inj' heq rfl).1.symm⟩ hq

/-- There is no new choice around a place that is not beneath the node. -/
theorem choices_of_replaced (hp : w <+: p → p = w) :
    ∀ q s, q ++ [s] <+: p → e.choiceAt d' q = true → e.choiceAt d q = true := by
  intro q s hq
  refine choiceAt_of_replaced hw hr fun hwq => ?_
  have hlong := hq.length_le
  rw [hp (hwq.trans ((List.prefix_append q [s]).trans hq)), List.length_append, List.length_singleton] at hlong
  have := hwq.length_le
  omega

/-- The choices around the node are still there or have left it fewer arms. -/
theorem around_replaced (hround : e.Around i w) (hold : e.Keyed d i.branch) :
    e.arms d' w < e.arms d w ∨ e.Keyed d' i.branch := by
  by_cases hstill : e.Keyed d' i.branch
  · exact .inr hstill
  · exact .inl (hround.lt (choices_of_replaced hw hr fun _ => rfl) hold hstill)

theorem arms_replaced : e.arms d' w ≤ e.arms d w := arms_le (choices_of_replaced hw hr fun _ => rfl)

end Replaced

namespace Peeling

/-- Something without new shaped keys is written where the host of an invocation is read. -/
theorem overwritten (h : Peeling e limit (i :: after) d) (hread : Locator.Reads w i.host)
    (hw : Locator.walk w d = some n) (hr : Locator.replace? w v d = some d') (hv : ∀ c, e.Keyed v c → e.Keyed n c)
    (hown : ∀ k, i.branch = i.host ++ [.key k] → ¬ e.Keyed v [.key k]) : Peeling e limit after d' := by
  have hkept : ∀ p, e.Keyed d' p → e.Keyed d p := fun p => keyed_of_fewer hw hr hv
  refine h.shrunk hkept fun j hj hk => ?_
  rcases List.mem_cons.mp hj with rfl | hj
  · exfalso
    obtain ⟨k, hbranch⟩ := hk.branch_eq
    obtain ⟨ms, hhost⟩ := (hkept _ hk).host_walk
    have hwhere := hread.eq_of_walk hw hhost
    rcases keyed_of_replaced hw hr hk with ⟨-, hnot⟩ | ⟨c, -, heq, hkc⟩
    · have heq := hnot (by rw [hwhere, hbranch]; exact List.prefix_append ..)
      rw [hwhere] at heq
      exact absurd (hbranch.symm.trans heq) (by simp)
    · rw [hbranch, hwhere] at heq
      rw [← List.append_cancel_left heq] at hkc
      exact hown k hbranch hkc
  · exact hj

/-- The arm of an object is put in its place, where the host of an invocation is read. -/
theorem chosen {ms : Members Json} {arm : String} (h : Peeling e limit (i :: after) d) (hread : Locator.Reads w i.host)
    (hw : Locator.walk w d = some (.obj ms)) (harm : isArm arm = true) (hv : Members.get? arm ms = some v)
    (hr : Locator.replace? w v d = some d') (hin : ∀ j ∈ i :: after, ¬ w ++ [.key arm] <+: j.host) :
    Peeling e limit after d' := by
  have hlength := hread.length_eq
  have hsnoc : e.arms d (w ++ [.key arm]) = e.arms d w + if e.choiceAt d w then 1 else 0 := by
    rw [arms_snoc]
    simp [Segment.key?, harm]
  intro p hk
  rcases keyed_of_replaced hw hr hk with ⟨hold, hnot⟩ | ⟨c, hc, rfl, -⟩
  · refine h.kept hold hk (choices_of_replaced hw hr hnot) fun j hj s hp hkj _ => ?_
    rcases List.mem_cons.mp hj with rfl | hj
    · obtain ⟨x, hx⟩ := hkj.host_walk
      have hlong := hp.length_le
      have hwhere := hread.eq_of_walk hw hx
      rw [hnot (by rw [hwhere]; exact (List.prefix_append ..).trans hp), List.length_append, List.length_singleton] at hlong
      omega
    · exact hj
  · refine h.moved (u := w ++ [.key arm]) hk hc (fun r => ?_) ?_ hin fun j hj hround hold => ?_
    · rw [(Locator.replace?_walk hw hr).1, List.append_assoc, Locator.walk_append, hw, Option.bind_some,
        List.singleton_append, Locator.walk_cons, Json.step?, hv, Option.bind_some]
    · exact (arms_replaced hw hr).trans (by omega)
    · have hle : e.arms d' w ≤ e.arms d w := arms_replaced hw hr
      obtain ⟨other, hother, hp⟩ := hround.arm
      rcases List.prefix_concat_iff.mp hp with heq | hp
      · -- the choice around this very arm is gone
        have hhere := hround.choiceAt.mpr hold
        rw [(List.append_inj' heq rfl).1] at hhere
        rw [hhere, if_pos rfl] at hsnoc
        exact .inl (by omega)
      · have hwround : e.Around j w := ⟨hround.own, other, hother, hp⟩
        rcases around_replaced hw hr hwround hold with hlt | hstill
        · exact .inl (by omega)
        · refine .inr ⟨?_, hwround, hstill⟩
          rcases List.mem_cons.mp hj with rfl | hj
          · have hlong := hp.length_le
            rw [List.length_append, List.length_singleton] at hlong
            omega
          · exact hj

/-- An item is removed, and later ones move down by one; nothing that waits was found in an item. -/
theorem shifted {items : List Json} {m : Nat} (h : Peeling e limit pending d) (hw : Locator.walk w d = some (.arr items))
    (hr : Locator.replace? w (.arr (items.eraseIdx m)) d = some d')
    (hin : ∀ j ∈ pending, ∀ t, ¬ w ++ [.index t] <+: j.host) (hrest : ∀ j ∈ pending, e.Keyed d j.branch → j ∈ rest) : Peeling e limit rest d' := by
  have hnew := (Locator.replace?_walk hw hr).1 []
  rw [List.append_nil] at hnew
  have hwalk : ∀ t a is, Locator.walk w a = some (.arr is) → ∀ r,
      Locator.walk (w ++ [.index t] ++ r) a = is[t]?.bind (Locator.walk r) := by
    intro t a is ha r
    rw [List.append_assoc, Locator.walk_append, ha]
    rfl
  intro p hk
  rcases keyed_of_replaced hw hr hk with ⟨hold, hnot⟩ | ⟨c, -, rfl, hkc⟩
  · exact h.kept hold hk (choices_of_replaced hw hr hnot) fun j hj _ _ hkj _ => hrest j hj hkj
  · obtain ⟨t, r, rfl, hne⟩ := keyed_arr hkc
    obtain ⟨t', ht'⟩ : ∃ t', (items.eraseIdx m)[t]? = items[t']? := by
      rw [List.getElem?_eraseIdx]
      split
      · exact ⟨t, rfl⟩
      · exact ⟨t + 1, rfl⟩
    rw [List.append_cons] at hk ⊢
    refine h.moved (u := w ++ [.index t']) hk hne (fun r => ?_) ?_ (fun j hj => hin j hj t') fun j hj hround hold => ?_
    · rw [hwalk t d' _ hnew, hwalk t' d _ hw, ht']
    · rw [arms_item, arms_item]
      exact arms_replaced hw hr
    · rw [arms_item, arms_item]
      refine (around_replaced hw hr hround.of_item hold).imp_right fun hstill => ?_
      exact ⟨hrest j hj hold, hround.of_item.mono (List.prefix_append ..), hstill⟩

/-- What was removed beside or beneath an object of the scanned document, wherever that is read now. -/
theorem removed {ps : Members Json} (h : Peeling e limit pending d) (ho : d.Ordered)
    (hq : Locator.walk q doc = some (.obj ps)) (hthere : ∀ j ∈ pending, ∃ ms, Locator.walk j.host doc = some (.obj ms))
    (hrest : ∀ j ∈ pending, j ∈ rest ∨ j.host = q ++ [.key k]) (hrem : Locator.Removed (q ++ [.key k]) d d') :
    Peeling e limit rest d' := by
  cases hrem with
  | @member q' w s ms heq hread hw hr =>
    obtain ⟨rfl, hs⟩ := List.append_inj' heq rfl
    cases hs
    have hasc := (Json.ordered_obj.mp (Locator.resolve_ordered ho (Locator.resolve_of_walk hw))).1
    have hkept : ∀ p, e.Keyed d' p → e.Keyed d p := fun p =>
      keyed_of_fewer hw hr fun c hkc => (keyed_of_erase hasc hkc).1
    refine h.shrunk hkept fun j hj hk => (hrest j hj).resolve_right fun hhost => ?_
    -- read at its own place the host would be gone
    obtain ⟨x, hold⟩ := (hkept _ hk).host_walk
    obtain ⟨y, hnew⟩ := hk.host_walk
    rw [hhost] at hold hnew
    obtain ⟨z, hz⟩ := Locator.walk_parent hold
    rw [← hread.eq_of_walk hw hz, (Locator.replace?_walk hw hr).1] at hnew
    obtain ⟨g, hg, -⟩ := Option.bind_eq_some_iff.mp hnew
    exact absurd ((Members.get?_erase_self hasc).symm.trans hg) (by simp)
  | @item q' w s items m heq hread hw hr =>
    obtain ⟨rfl, -⟩ := List.append_inj' heq rfl
    -- the object's own place is not an array, neither in the scanned document nor now
    refine h.shifted hw hr (fun j hj t hp => ?_) fun j hj hk => (hrest j hj).resolve_right fun hhost => ?_
    · obtain ⟨ms, hms⟩ := hthere j hj
      obtain ⟨x, hx⟩ := Locator.walk_of_prefix hms hp
      obtain ⟨y, hy⟩ := Locator.walk_of_prefix hx (List.prefix_append ..)
      rw [hread.eq_of_walk hy hq, Locator.walk_snoc, hq] at hx
      cases hx
    · obtain ⟨x, hx⟩ := hk.host_walk
      rw [hhost] at hx
      obtain ⟨z, hz⟩ := Locator.walk_parent hx
      rw [← hread.eq_of_walk hw hz, hw] at hz
      cases hz

end Peeling

/-! ## Turns -/

/-- A numeral has no dot. -/
theorem isShaped_repr (m : Nat) (domain : String) : Directive.isShaped m.repr domain = false := by
  refine Bool.eq_false_iff.mpr fun hs => ?_
  obtain ⟨front, word, heq, -⟩ := Directive.shaped_ends hs
  have hdot : '.' ∈ m.repr.toList := by simp [heq]
  rw [Nat.repr_eq_ofList_toDigits, String.toList_ofList] at hdot
  have hdigit : '.'.isDigit = true := Nat.isDigit_of_mem_toDigits (by decide : 0 < 10) (by decide : 10 ≤ 10) hdot
  cases hdigit

theorem child?_arm {arm : String} (harm : isArm arm = true) (h : n.child? (.key arm) = some v) :
    ∃ ms, n = .obj ms ∧ Members.get? arm ms = some v := by
  cases n with
  | null | bool _ | num _ | str _ => cases h
  | obj ms => exact ⟨ms, rfl, h⟩
  | arr items =>
    have hnone : Segment.numeral? arm.toList = none := by
      rw [isArm, Bool.or_eq_true, beq_iff_eq, beq_iff_eq] at harm
      rcases harm with rfl | rfl
      · decide +kernel
      · decide +kernel
    obtain ⟨m, hm, -⟩ := Option.bind_eq_some_iff.mp h
    rw [Segment.index?, hnone] at hm
    cases hm

namespace Scanned

variable (h : e.Scanned doc found)

include h

/-- At the start of a pass every shaped key waits. -/
theorem waits (hk : e.Keyed doc p) : Waits e found doc p := by
  obtain ⟨⟨q, k, rfl, hs⟩, n, hn⟩ := id hk
  obtain ⟨ms, hq⟩ := Locator.walk_parent hn
  rw [Locator.walk_snoc, hq] at hn
  rcases visited_of_walk hq with hv | ⟨host, target, v, key, written, arm, hv, ht, hverb, harm, hp⟩
  · obtain ⟨a, ha, hbranch⟩ := h.branch_of_shaped hv (Members.mem_of_get? hn) hs
    exact ⟨a, ha, .inl hbranch⟩
  · obtain ⟨members, rfl, hinvoked⟩ := host?_eq_some.mp ht
    obtain ⟨hmem, hparse, hshape⟩ := invocation?_some hinvoked
    refine ⟨e.bind doc host v key written, h.mem_iff.mpr ⟨host, _, v, key, written, hv, ht, rfl⟩, .inr ⟨?_, ?_⟩⟩
    · refine ⟨⟨key, by rw [bind_host, bind_branch], ?_⟩, arm, harm, ?_⟩
      · rw [choosing, hparse, Option.any_some, hverb]
        rfl
      · rw [bind_host]
        exact hp.trans (List.prefix_append ..)
    · rw [bind_branch, keyed_key]
      exact ⟨(hshape _ hmem).mpr rfl, written, hv.walk_member h.ordered hmem⟩

/-- An object that is not there when its turn comes did not stand under a shaped key. -/
theorem host_unshaped (hinert : e.Inert) (hd : doc.Sound) (hs : Invocation.schedule found = some (before ++ i :: after))
    (hr : (e.execute before).runOn doc = (.ok (), now)) {s : Segment} (hhost : i.host = q ++ [s])
    (hgone : Locator.resolve i.host now = none) : Directive.isShaped s.text e.config.domain = false := by
  cases s with
  | index m => exact isShaped_repr m e.config.domain
  | key k =>
    refine Bool.eq_false_iff.mpr fun hshape => ?_
    have hi : i ∈ found := (Invocation.mem_schedule hs).mp (by simp)
    obtain ⟨host, target, v, key, written, hv, -, rfl⟩ := h.mem_iff.mp hi
    rw [bind_host] at hhost
    subst hhost
    obtain ⟨middle, hmiddle, hlast⟩ := hv.split
    cases hlast with
    | member hm _ _ =>
      obtain ⟨j, hj, hbranch⟩ := h.branch_of_shaped hmiddle hm hshape
      obtain ⟨n, hn⟩ := h.host_there hinert hd hj (by rw [hbranch, bind_host]) hs hr
      rw [Locator.resolve_of_walk hn] at hgone
      cases hgone

/-- Nothing was found in an arm of a choice. -/
theorem not_in_arm {arm : String} (hi : i ∈ found) (hverb : i.directive.verb = .choose) (harm : isArm arm = true)
    (hread : Locator.Reads w i.host) (hj : j ∈ found) : ¬ w ++ [.key arm] <+: j.host := by
  intro hin
  obtain ⟨x, hx⟩ := h.host_walk hi
  obtain ⟨y, hy⟩ := h.host_walk hj
  obtain ⟨z, hz⟩ := Locator.walk_of_prefix hy ((List.prefix_append ..).trans hin)
  obtain ⟨host, target, v, key, written, hvis, -, rfl⟩ := h.mem_iff.mp hj
  rw [hread.eq_of_walk hz hx, bind_host] at hin
  exact h.arm_not_above hi hverb harm hvis hin

/-- A node without shaped keys is written, maybe as a new member where the host is gone. -/
theorem peeling_written (hinert : e.Inert) (hd : doc.Sound) (hs : Invocation.schedule found = some (before ++ i :: after))
    (hr : (e.execute before).runOn doc = (.ok (), now)) (hp : Peeling e limit (i :: after) now)
    (hplain : e.shaped v = false) (hw : Locator.Written i.host v now d') : Peeling e limit after d' := by
  cases hw with
  | there hread hn _ hrep =>
    exact hp.overwritten hread hn hrep (fun c hc => absurd hc (not_keyed hplain)) fun k _ => not_keyed hplain
  | added hhost _ hn habsent _ hrep =>
    have hkey := h.host_unshaped hinert hd hs hr hhost habsent
    have hkept : ∀ p, e.Keyed d' p → e.Keyed now p := by
      intro p
      refine keyed_of_fewer hn hrep fun c hkc => (keyed_of_insert hkey hkc).resolve_right fun hnew => ?_
      obtain ⟨r, -, hkr⟩ := hnew
      exact not_keyed hplain hkr
    refine hp.shrunk hkept fun j hj hk => ?_
    rcases List.mem_cons.mp hj with rfl | hj
    · obtain ⟨x, hx⟩ := (hkept _ hk).host_walk
      rw [Locator.resolve_of_walk hx] at habsent
      cases habsent
    · exact hj

/-- Whatever a turn finds, the deepest keys are those that wait. -/
theorem peeling_acted (hinert : e.Inert) (hd : doc.Sound) (hs : Invocation.schedule found = some (before ++ i :: after))
    (hr : (e.execute before).runOn doc = (.ok (), now)) (ho : now.Ordered) (hp : Peeling e limit (i :: after) now)
    (ha : Acted e i now d') : Peeling e limit after d' := by
  have hmem : ∀ {a}, a ∈ i :: after → a ∈ found := fun ha =>
    (Invocation.mem_schedule hs).mp (List.mem_append_right _ ha)
  have hi : i ∈ found := hmem (List.mem_cons_self ..)
  cases ha with
  | wrote hplain _ hw => exact h.peeling_written hinert hd hs hr hp hplain (Locator.written_of_write? hw)
  | chose hverb harm harmed hw =>
    rw [Locator.resolve_snoc] at harmed
    obtain ⟨x, hx, hchild⟩ := Option.bind_eq_some_iff.mp harmed
    cases Locator.written_of_write? hw with
    | added _ _ _ habsent _ _ =>
      rw [hx] at habsent
      cases habsent
    | there hread hn hresolve hrep =>
      rw [hx] at hresolve
      cases hresolve
      obtain ⟨ms, rfl, hv⟩ := child?_arm harm hchild
      exact hp.chosen hread hn harm hv hrep fun j hj => h.not_in_arm hi hverb harm hread (hmem hj)
  | gone hhost hrem =>
    obtain ⟨ps, hq⟩ := h.parent_walk hi hhost
    refine hp.removed ho hq (fun j hj => h.host_walk (hmem hj)) (fun j hj => ?_)
      (Locator.removed_of_remove? (by simp) (hhost ▸ hrem))
    rcases List.mem_cons.mp hj with rfl | hj
    · exact .inr hhost
    · exact .inl hj
  | @merged key ms combined hbranch hresolve _ hkeys hw =>
    have hasc := (Json.ordered_obj.mp (Locator.resolve_ordered ho hresolve)).1
    cases Locator.written_of_write? hw with
    | added _ _ _ habsent _ _ =>
      rw [hresolve] at habsent
      cases habsent
    | there hread hn hx hrep =>
      rw [hresolve] at hx
      cases hx
      refine hp.overwritten hread hn hrep (fun c hc => (keyed_of_erase hasc (hkeys c hc)).1) fun k hk hself => ?_
      obtain rfl : key = k := by
        rw [hbranch] at hk
        exact Literal.last_key hk
      exact (keyed_of_erase hasc (hkeys _ hself)).2 rfl

/-- What a pass has done so far keeps the deepest keys waiting. -/
theorem peeling_execute (hinert : e.Inert) (hd : doc.Sound) (hlimit : ∀ p, e.Keyed doc p → e.arms doc p ≤ limit)
    (hs : Invocation.schedule found = some (before ++ after)) (hr : (e.execute before).runOn doc = (.ok (), now)) :
    now.Sound ∧ now.Ordered ∧ Peeling e limit after now := by
  induction before using List.reverseRecOn generalizing after now with
  | nil =>
    cases hr
    refine ⟨hd, h.ordered, fun p hk => ⟨hlimit p hk, fun _ => ?_⟩⟩
    obtain ⟨i, hi, hwait⟩ := h.waits hk
    exact ⟨i, (Invocation.mem_schedule hs).mpr hi, hwait⟩
  | append_singleton before i ih =>
    obtain ⟨d, hbefore, happly⟩ := execute_snoc.mp hr
    rw [List.append_assoc, List.singleton_append] at hs
    obtain ⟨hsound, hord, hp⟩ := ih hs hbefore
    have hmem : ∀ {a}, a ∈ before ++ i :: after → a ∈ found := fun ha => (Invocation.mem_schedule hs).mp ha
    have hi : i ∈ found := hmem (by simp)
    have hthere : ∀ j ∈ after, ∃ ms, Locator.walk j.host doc = some (.obj ms) := fun j hj =>
      h.host_walk (hmem (by simp [hj]))
    obtain ⟨hsound', hord', d1, hacted, ho1, hsweep⟩ := h.turn_acted hinert hi hsound hord happly
    have hp1 := h.peeling_acted hinert hd hs hbefore hord hp hacted
    refine ⟨hsound', hord', ?_⟩
    rcases hsweep with rfl | ⟨q, k, ps, -, hq, hrem⟩
    · exact hp1
    · exact hp1.removed ho1 hq hthere (fun j hj => .inl hj) hrem

end Scanned

/-! ## Passes -/

/-- Every shaped key has fewer arms around it. -/
def Shallow (e : Engine) (depth : Nat) (d : Json) : Prop := ∀ p, e.Keyed d p → e.arms d p < depth

theorem shallow_deepest (e : Engine) (d : Json) : e.Shallow (e.deepest 0 d + 1) d :=
  fun _ hk => Nat.lt_succ_of_le (arms_le_deepest hk)

/-- A scan finds something only where there is a layer left. -/
theorem Shallow.unshaped (h : e.Shallow 0 d) (ho : d.Ordered) : e.shaped d = false := by
  refine Bool.eq_false_iff.mpr fun hs => ?_
  obtain ⟨p, hk⟩ := exists_keyed ho hs
  exact absurd (h p hk) (Nat.not_lt_zero _)

/-- A pass takes a layer of choices away. -/
theorem runPass_shallow {depth count : Nat} (hvalid : e.config.fault? = none) (hinert : e.Inert) (hd : d.Sound)
    (ho : d.Ordered) (h : e.Shallow (depth + 1) d) (hrun : e.runPass.runOn d = (.ok count, d')) :
    d'.Sound ∧ d'.Ordered ∧ e.Shallow depth d' := by
  obtain ⟨found, order, hscan, hs, hexec, -⟩ := runPass_ok.mp hrun
  have hscanned : e.Scanned d found := ⟨ho, suffix_of_fault? hvalid, hscan⟩
  have hlimit : ∀ p, e.Keyed d p → e.arms d p ≤ depth := fun p hk => Nat.le_of_lt_succ (h p hk)
  obtain ⟨hsound, hord, hp⟩ := hscanned.peeling_execute hinert hd hlimit (by rwa [List.append_nil]) hexec
  refine ⟨hsound, hord, fun p hk => ?_⟩
  obtain ⟨hbound, hwaits⟩ := hp p hk
  refine Nat.lt_of_le_of_ne hbound fun heq => ?_
  obtain ⟨i, hi, -⟩ := hwaits heq
  cases hi

/-- No more passes can work than there are layers, and those that have worked have taken one away each. -/
theorem Worked.shallow {depth m : Nat} (hvalid : e.config.fault? = none) (hinert : e.Inert) (hw : e.Worked m d d')
    (hd : d.Sound) (ho : d.Ordered) (h : e.Shallow depth d) : m ≤ depth ∧ d'.Ordered ∧ e.Shallow (depth - m) d' := by
  induction hw generalizing depth with
  | start d => exact ⟨Nat.zero_le _, ho, h⟩
  | @pass m count d d1 d' hrun _ ih =>
    cases depth with
    | zero =>
      obtain ⟨found, _, hscan, -, -, hcount⟩ := runPass_ok.mp hrun
      rw [scan_nil.mpr (h.unshaped ho)] at hscan
      cases hscan
      cases hcount
    | succ depth =>
      obtain ⟨hd1, ho1, h1⟩ := runPass_shallow hvalid hinert hd ho h hrun
      obtain ⟨hm, ho', h'⟩ := ih hd1 ho1 h1
      exact ⟨Nat.succ_le_succ hm, ho', by rwa [Nat.add_sub_add_right]⟩

/-! ## Expansions -/

/-- With neither parameters nor imports that bring new invocations, an expansion takes at most one pass more than there
    are arms around the deepest shaped key, and so a limit that allows these is never exceeded. -/
theorem expand_peels (hvalid : e.config.fault? = none) (hinert : e.Inert) (hopened : Opened doc) (ho : doc.Ordered)
    (hmax : e.deepest 0 doc + 1 ≤ e.config.maxPasses) :
    (∀ m, (e.expand.runOn doc).1 ≠ .error (.passLimitExceeded m)) ∧
      ∀ count result, e.expand.runOn doc = (.ok count, result) → count ≤ e.deepest 0 doc + 1 := by
  have hd := opened_sound hopened
  have hlayers : ∀ {m d}, e.Worked m doc d →
      m ≤ e.deepest 0 doc + 1 ∧ d.Ordered ∧ e.Shallow (e.deepest 0 doc + 1 - m) d :=
    fun hw => hw.shallow hvalid hinert hd ho (e.shallow_deepest doc)
  refine ⟨fun m hfail => ?_, fun count result hrun => ?_⟩
  · obtain ⟨d, hrun⟩ : ∃ d, e.expand.runOn doc = (.error (.passLimitExceeded m), d) := ⟨_, Prod.ext hfail rfl⟩
    rcases expandFrom_error.mp hrun with ⟨k, now, -, -, hpass⟩ | ⟨hw, hs | ⟨found, hs, hne, -⟩⟩
    · exact runPass_not_limit m (congrArg Prod.fst hpass)
    · nomatch scan_fault hs
    · obtain ⟨-, hord, hshallow⟩ := hlayers hw
      rw [Nat.sub_eq_zero_of_le hmax] at hshallow
      rw [scan_nil.mpr (hshallow.unshaped hord)] at hs
      cases hs
      exact hne rfl
  · obtain ⟨-, hw, -⟩ := expand_ok.mp hrun
    exact (hlayers hw).1

/-- A parameter and an import, and two passes. -/
def stocked : Engine :=
  ⟨{ parameters := [("p", .str "v")], maxPasses := 2 }, Imports.ofEntries [("f", "\x7b\"x\":null\x7d".toUTF8)]⟩

/-- An import into an object that holds a choice, with a look-up in its arm. -/
def layered : Json := .obj [("a", .obj [("kubegen.Object.LoadJSON", .str "f"),
  ("y", .obj [("kubegen.Null.If", .bool true), ("then", .obj [("kubegen.String.Lookup", .str "p")])])])]

/-- All the passes that the bound allows are taken. -/
theorem expand_peels_layered :
    stocked.config.fault? = none ∧ stocked.Inert ∧ Opened layered ∧ layered.Ordered ∧ stocked.deepest 0 layered = 1 ∧
      stocked.expand.runOn layered = (.ok 2, .obj [("a", .obj [("x", .null), ("y", .str "v")])]) ∧
      2 ≤ stocked.deepest 0 layered + 1 := by
  have himports : stocked.imports = Imports.ofEntries [("f", "\x7b\"x\":null\x7d".toUTF8)] := rfl
  have hinert : stocked.Inert := by
    refine inert_of_entries (List.forall_mem_singleton.mpr rfl) himports (List.forall_mem_singleton.mpr fun imported h => ?_)
    have hdecoded : Json.decode "\x7b\"x\":null\x7d".toUTF8 = some (.obj [("x", .null)]) := by rfl
    rw [hdecoded] at h
    cases h
    decide +kernel
  have hopened : Opened layered := .inl ⟨_, accept_ok.mpr ⟨rfl, by decide +kernel⟩⟩
  have ho : layered.Ordered := by decide +kernel
  have hvalid : stocked.config.fault? = none := by decide +kernel
  have hdeepest : stocked.deepest 0 layered = 1 := by decide +kernel
  have hrun : stocked.expand.runOn layered = (.ok 2, .obj [("a", .obj [("x", .null), ("y", .str "v")])]) := by
    decide +kernel
  obtain ⟨-, hcount⟩ := expand_peels hvalid hinert hopened ho (by rw [hdeepest]; decide)
  exact ⟨hvalid, hinert, hopened, ho, hdeepest, hrun, hcount 2 _ hrun⟩

end DocExpand.Engine
