/-
  DocExpand.Proofs.Engine.Depth — how many arms of choices are around a shaped key.

  `deepest` is the largest number of arms around one shaped key of a document. Told by its
  place, a shaped key (`Keyed`) has the arms around it that the way to it enters (`arms`),
  and these are the fewer the fewer choices there are on the way (`armsFrom_le`,
  `armsFrom_lt`). Merging something without shaped keys adds none (`keyed_of_merge`).
-/

import DocExpand.Proofs.Engine.Arms

namespace DocExpand.Engine

variable {e : Engine} {d d' node n old : Json} {p q at_ other : Locator} {s : Segment} {ms incoming existing : Members Json}
  {items : List Json} {key k arm : String} {around : Nat}

/-! ## The choice of an object -/

theorem shaped_of_choosing (h : e.choosing key = true) : Directive.isShaped key e.config.domain = true := by
  unfold choosing at h
  cases hp : Directive.parse? key e.config.domain with
  | none =>
    rw [hp] at h
    cases h
  | some v => exact Directive.shaped_of_parse hp

/-- One key names the directive of a choice. -/
theorem choosing_inj (h : e.choosing key = true) (hk : e.choosing k = true) : key = k := by
  have hall : ∀ {key}, e.choosing key = true →
      (⟨.null, .a, .choose⟩ : Directive).identifier e.config.domain = key := by
    intro key h
    unfold choosing at h
    cases hp : Directive.parse? key e.config.domain with
    | none =>
      rw [hp] at h
      cases h
    | some v =>
      rw [hp] at h
      have hmem : v ∈ Directive.registry := by
        obtain ⟨x, -, hx⟩ := Option.bind_eq_some_iff.mp hp
        obtain ⟨kind, -, hx⟩ := Option.bind_eq_some_iff.mp hx
        exact List.mem_of_find?_eq_some hx
      rw [← Directive.choose_mem hmem (by simpa using h)]
      exact Directive.identifier_of_parse hp
  exact (hall h).symm.trans (hall hk)

mutual

/-- The largest number of arms around one shaped key of a node, with `around` of them around the node itself. -/
def deepest (e : Engine) (around : Nat) : Json → Nat
  | .obj members => deepestMembers e around (e.isChoice members) members
  | .arr items => deepestItems e around items
  | _ => 0

def deepestItems (e : Engine) (around : Nat) : List Json → Nat
  | [] => 0
  | item :: rest => max (deepest e around item) (deepestItems e around rest)

def deepestMembers (e : Engine) (around : Nat) (choice : Bool) : List (String × Json) → Nat
  | [] => 0
  | (key, value) :: rest =>
    max (if Directive.isShaped key e.config.domain then around else 0)
      (max (deepest e (if choice && isArm key then around + 1 else around) value) (deepestMembers e around choice rest))

end

theorem le_deepestItems {item : Json} (h : item ∈ items) : e.deepest around item ≤ deepestItems e around items := by
  induction items with
  | nil => cases h
  | cons x rest ih =>
    rw [deepestItems]
    rcases List.mem_cons.mp h with rfl | h
    · exact Nat.le_max_left ..
    · exact Nat.le_trans (ih h) (Nat.le_max_right ..)

theorem le_deepestMembers {choice : Bool} {value : Json} (h : (key, value) ∈ ms) :
    (Directive.isShaped key e.config.domain = true → around ≤ deepestMembers e around choice ms) ∧
      e.deepest (if choice && isArm key then around + 1 else around) value ≤ deepestMembers e around choice ms := by
  induction ms with
  | nil => cases h
  | cons m rest ih =>
    obtain ⟨l, x⟩ := m
    rw [deepestMembers]
    rcases List.mem_cons.mp h with heq | h
    · cases heq
      refine ⟨fun hs => ?_, Nat.le_trans (Nat.le_max_left ..) (Nat.le_max_right ..)⟩
      rw [if_pos hs]
      exact Nat.le_max_left ..
    · obtain ⟨hkey, hvalue⟩ := ih h
      have hrest : ∀ a b : Nat, deepestMembers e around choice rest ≤ max a (max b (deepestMembers e around choice rest)) :=
        fun a b => Nat.le_trans (Nat.le_max_right b _) (Nat.le_max_right a _)
      exact ⟨fun hs => Nat.le_trans (hkey hs) (hrest _ _), Nat.le_trans hvalue (hrest _ _)⟩

/-! ## Places of shaped keys -/

/-- At the place a document has a member under a shaped key. -/
structure Keyed (e : Engine) (d : Json) (p : Locator) : Prop where
  named : ∃ q k, p = q ++ [.key k] ∧ Directive.isShaped k e.config.domain = true
  there : ∃ n, Locator.walk p d = some n

theorem keyed_key : e.Keyed d (q ++ [.key k]) ↔
    Directive.isShaped k e.config.domain = true ∧ ∃ n, Locator.walk (q ++ [.key k]) d = some n := by
  constructor
  · intro h
    obtain ⟨r, l, heq, hs⟩ := h.named
    obtain rfl := Literal.last_key heq
    exact ⟨hs, h.there⟩
  · intro h
    exact ⟨⟨q, k, rfl, h.1⟩, h.2⟩

theorem Keyed.ne_nil (h : e.Keyed d p) : p ≠ [] := by
  obtain ⟨q, k, rfl, -⟩ := h.named
  simp

theorem keyed_append (hp : p ≠ []) : e.Keyed d (q ++ p) ↔ ∃ n, Locator.walk q d = some n ∧ e.Keyed n p := by
  obtain ⟨r, s, rfl⟩ := (List.eq_nil_or_concat' p).resolve_left hp
  have hnamed : (∃ x k, q ++ (r ++ [s]) = x ++ [.key k] ∧ Directive.isShaped k e.config.domain = true) ↔
      ∃ x k, r ++ [s] = x ++ [.key k] ∧ Directive.isShaped k e.config.domain = true := by
    constructor
    · intro h
      obtain ⟨x, k, heq, hs⟩ := h
      rw [← List.append_assoc] at heq
      exact ⟨r, k, by rw [(List.append_inj' heq rfl).2], hs⟩
    · intro h
      obtain ⟨x, k, heq, hs⟩ := h
      exact ⟨q ++ x, k, by rw [heq, List.append_assoc], hs⟩
  constructor
  · intro h
    obtain ⟨n, hn⟩ := h.there
    rw [Locator.walk_append] at hn
    obtain ⟨m, hm, hn⟩ := Option.bind_eq_some_iff.mp hn
    exact ⟨m, hm, hnamed.mp h.named, n, hn⟩
  · intro h
    obtain ⟨m, hm, hk⟩ := h
    obtain ⟨n, hn⟩ := hk.there
    exact ⟨hnamed.mpr hk.named, n, by rw [Locator.walk_append, hm]; exact hn⟩

theorem keyed_cons (hp : p ≠ []) : e.Keyed d (s :: p) ↔ ∃ c, d.step? s = some c ∧ e.Keyed c p := by
  have h := keyed_append (e := e) (d := d) (q := [s]) hp
  rw [List.singleton_append] at h
  rw [h, Locator.walk_cons]
  cases d.step? s <;> rfl

/-- There is no shaped key among the positions of an array. -/
theorem keyed_arr (h : e.Keyed (.arr items) p) : ∃ m r, p = .index m :: r ∧ r ≠ [] := by
  obtain ⟨s, r, rfl⟩ := List.exists_cons_of_ne_nil h.ne_nil
  obtain ⟨n, hn⟩ := h.there
  obtain ⟨x, hx, -⟩ := Option.bind_eq_some_iff.mp hn
  cases s with
  | key l => cases hx
  | index m =>
    refine ⟨m, r, rfl, ?_⟩
    rintro rfl
    obtain ⟨q, k, heq, -⟩ := h.named
    have hlast := congrArg List.getLast? heq
    rw [List.getLast?_concat] at hlast
    cases hlast

/-- Without shaped keys there is no place of one. -/
theorem not_keyed (h : e.shaped d = false) : ¬ e.Keyed d p := by
  intro hk
  obtain ⟨⟨q, k, rfl, hs⟩, n, hn⟩ := hk
  obtain ⟨ms, hq⟩ := Locator.walk_parent hn
  rw [Locator.walk_snoc, hq] at hn
  have hshaped : e.shaped (.obj ms) = true := shapedMembers_iff.mpr (.inl ⟨_, Members.mem_of_get? hn, hs⟩)
  rw [shaped_of_resolve (Locator.resolve_of_walk hq) hshaped] at h
  cases h

theorem exists_keyed (ho : d.Ordered) (h : e.shaped d = true) : ∃ p, e.Keyed d p := by
  obtain ⟨p, ms, hp, m, hm, hs⟩ := walk_of_shaped d ho h
  have hasc := (Json.ordered_obj.mp (Locator.resolve_ordered ho (Locator.resolve_of_walk hp))).1
  refine ⟨p ++ [.key m.1], keyed_key.mpr ⟨hs, m.2, ?_⟩⟩
  rw [Locator.walk_snoc, hp]
  exact Members.get?_of_mem hasc hm

/-- Beneath an object without one member there is nothing that was not there before. -/
theorem keyed_of_erase (hasc : Members.Ascending ms) (h : e.Keyed (.obj (Members.erase key ms)) p) :
    e.Keyed (.obj ms) p ∧ p ≠ [.key key] := by
  obtain ⟨s, r, rfl⟩ := List.exists_cons_of_ne_nil h.ne_nil
  obtain ⟨n, hn⟩ := h.there
  obtain ⟨c, hc, hr⟩ := Option.bind_eq_some_iff.mp hn
  cases s with
  | index m => cases hc
  | key l =>
    have hne : key ≠ l := by
      rintro rfl
      exact absurd ((Members.get?_erase_self hasc).symm.trans hc) (by simp)
    refine ⟨⟨h.named, n, ?_⟩, by simp [hne.symm]⟩
    rw [← hn]
    exact congrArg (Option.bind · (Locator.walk r)) (Members.get?_erase_of_ne hne).symm

/-- A new member may bring places beneath itself. -/
theorem keyed_of_insert (hkey : Directive.isShaped key e.config.domain = false)
    (h : e.Keyed (.obj (Members.insert key node ms)) p) :
    e.Keyed (.obj ms) p ∨ ∃ r, p = .key key :: r ∧ e.Keyed node r := by
  obtain ⟨s, r, rfl⟩ := List.exists_cons_of_ne_nil h.ne_nil
  by_cases hs : s = .key key
  · subst hs
    have hr : r ≠ [] := by
      rintro rfl
      rw [((keyed_key (q := [])).mp h).1] at hkey
      cases hkey
    obtain ⟨c, hc, hk⟩ := (keyed_cons hr).mp h
    rw [Json.step?, Members.get?_insert_self] at hc
    cases hc
    exact .inr ⟨r, rfl, hk⟩
  · have hsame : (Json.obj (Members.insert key node ms)).step? s = (Json.obj ms).step? s := by
      cases s with
      | index n => rfl
      | key l => exact Members.get?_insert_of_ne (fun he => hs (congrArg Segment.key he.symm)) ..
    obtain ⟨n, hn⟩ := h.there
    rw [Locator.walk_cons, hsame] at hn
    exact .inl ⟨h.named, n, hn⟩

mutual

theorem keyed_of_mergeNode (policy : MergePolicy) : ∀ (new : Json) {old : Json} {p : Locator}, e.shaped new = false →
    e.Keyed (Json.mergeNode policy old new) p → e.Keyed old p
  | .obj incoming, old, p, hnew, h => by
    have hkept : e.Keyed (if policy = .overwrite then .obj incoming else old) p → e.Keyed old p := by
      intro h
      split at h
      · exact absurd h (not_keyed hnew)
      · exact h
    cases old with
    | obj existing => exact keyed_of_merge policy incoming hnew h
    | null | bool _ | num _ | str _ | arr _ => exact hkept h
  | .null, old, p, hnew, h | .bool _, old, p, hnew, h | .num _, old, p, hnew, h | .str _, old, p, hnew, h
  | .arr _, old, p, hnew, h => by
    unfold Json.mergeNode at h
    split at h
    · exact absurd h (not_keyed hnew)
    · exact h

/-- The shaped keys of a merged object are its own, if there are none in what is merged into it. -/
theorem keyed_of_merge (policy : MergePolicy) : ∀ (incoming : List (String × Json)) {existing : Members Json} {p : Locator},
    shapedMembers e incoming = false → e.Keyed (.obj (Json.mergeMembers policy existing incoming)) p →
    e.Keyed (.obj existing) p
  | [], _, _, _, h => h
  | (key, new) :: rest, existing, p, hnew, h => by
    rw [shapedMembers, Bool.or_eq_false_iff, Bool.or_eq_false_iff] at hnew
    obtain ⟨⟨hkey, hvalue⟩, hrest⟩ := hnew
    rw [Json.mergeMembers] at h
    rcases keyed_of_insert hkey (keyed_of_merge policy rest hrest h) with hold | ⟨r, rfl, hput⟩
    · exact hold
    · rw [keyed_cons hput.ne_nil]
      split at hput
      · rename_i old hold
        exact ⟨old, hold, keyed_of_mergeNode policy new hvalue hput⟩
      · exact absurd hput (not_keyed hvalue)

end

/-! ## Arms on the way -/

/-- The object at a place holds a choice. -/
def choiceAt (e : Engine) (d : Json) (p : Locator) : Bool :=
  match Locator.walk p d with
  | some (.obj members) => e.isChoice members
  | _ => false

/-- A choice is told by its key. -/
theorem choiceAt_iff : e.choiceAt d p = true ↔ ∃ k, e.choosing k = true ∧ e.Keyed d (p ++ [.key k]) := by
  constructor
  · intro h
    unfold choiceAt at h
    split at h
    · rename_i members hp
      obtain ⟨m, hm, hk⟩ := List.any_eq_true.mp h
      refine ⟨m.1, hk, keyed_key.mpr ⟨shaped_of_choosing hk, ?_⟩⟩
      rw [Locator.walk_snoc, hp]
      exact Option.isSome_iff_exists.mp (Members.contains_iff.mpr (Members.mem_keys_of_mem hm))
    · cases h
  · intro h
    obtain ⟨k, hk, hkeyed⟩ := h
    obtain ⟨n, hn⟩ := hkeyed.there
    obtain ⟨ms, hp⟩ := Locator.walk_parent hn
    rw [Locator.walk_snoc, hp] at hn
    rw [choiceAt, hp]
    exact List.any_eq_true.mpr ⟨_, Members.mem_of_get? hn, hk⟩

/-- The arms of choices that a way enters, from a place on. -/
def armsFrom (e : Engine) (d : Json) (at_ : Locator) : Locator → Nat
  | [] => 0
  | s :: p => (if e.choiceAt d at_ && s.key?.any isArm then 1 else 0) + armsFrom e d (at_ ++ [s]) p

/-- The arms of choices around a place. -/
def arms (e : Engine) (d : Json) (p : Locator) : Nat := e.armsFrom d [] p

theorem armsFrom_append (at_ p q : Locator) : e.armsFrom d at_ (p ++ q) = e.armsFrom d at_ p + e.armsFrom d (at_ ++ p) q := by
  induction p generalizing at_ with
  | nil => rw [List.nil_append, List.append_nil, armsFrom, Nat.zero_add]
  | cons s p ih => rw [List.cons_append, armsFrom, armsFrom, ih, List.append_assoc, List.singleton_append, Nat.add_assoc]

/-- With no more choices on it a way enters no more arms. -/
theorem armsFrom_le (h : ∀ q s, q ++ [s] <+: p → e.choiceAt d' (other ++ q) = true → e.choiceAt d (at_ ++ q) = true) :
    e.armsFrom d' other p ≤ e.armsFrom d at_ p := by
  induction p generalizing at_ other with
  | nil => exact Nat.le_refl 0
  | cons s p ih =>
    rw [armsFrom, armsFrom]
    refine Nat.add_le_add ?_ (ih fun q t hq hc => ?_)
    · have hhere := h [] s (List.cons_prefix_cons.mpr ⟨rfl, List.nil_prefix⟩)
      rw [List.append_nil, List.append_nil] at hhere
      cases hc : e.choiceAt d' other with
      | false => exact Nat.zero_le _
      | true => rw [hhere hc]
    · rw [List.append_assoc, List.singleton_append] at hc ⊢
      exact h (s :: q) t (List.cons_prefix_cons.mpr ⟨rfl, hq⟩) hc

/-- With one choice less it enters one arm less. -/
theorem armsFrom_lt (h : ∀ q s, q ++ [s] <+: p → e.choiceAt d' (other ++ q) = true → e.choiceAt d (at_ ++ q) = true)
    (harm : isArm arm = true) (hq : q ++ [.key arm] <+: p) (hold : e.choiceAt d (at_ ++ q) = true)
    (hnew : e.choiceAt d' (other ++ q) = false) : e.armsFrom d' other p < e.armsFrom d at_ p := by
  induction p generalizing at_ other q with
  | nil => exact absurd (List.prefix_nil.mp hq) (by simp)
  | cons s p ih =>
    have hrest : ∀ r t, r ++ [t] <+: p → e.choiceAt d' (other ++ [s] ++ r) = true → e.choiceAt d (at_ ++ [s] ++ r) = true := by
      intro r t hr hc
      rw [List.append_assoc, List.singleton_append] at hc ⊢
      exact h (s :: r) t (List.cons_prefix_cons.mpr ⟨rfl, hr⟩) hc
    rw [armsFrom, armsFrom]
    cases q with
    | nil =>
      obtain ⟨hs, -⟩ := List.cons_prefix_cons.mp hq
      subst hs
      rw [List.append_nil] at hold hnew
      have hle := armsFrom_le hrest
      rw [hold, hnew]
      change 0 + _ < (if true && isArm arm then 1 else 0) + _
      rw [harm]
      change 0 + _ < 1 + _
      omega
    | cons t q =>
      obtain ⟨rfl, hrel⟩ := List.cons_prefix_cons.mp hq
      have hlt := ih hrest hrel (by rwa [List.append_assoc, List.singleton_append])
        (by rwa [List.append_assoc, List.singleton_append])
      have hhere := h [] t (List.cons_prefix_cons.mpr ⟨rfl, List.nil_prefix⟩)
      rw [List.append_nil, List.append_nil] at hhere
      cases hc : e.choiceAt d' other with
      | false =>
        simp only [Bool.false_and, Bool.false_eq_true, if_false]
        omega
      | true =>
        rw [hhere hc]
        omega

theorem armsFrom_le_deepest (hat : Locator.walk at_ d = some node) (h : e.Keyed node p) :
    around + e.armsFrom d at_ p ≤ e.deepest around node := by
  induction p generalizing at_ node around with
  | nil => exact absurd rfl h.ne_nil
  | cons s p ih =>
    obtain ⟨n, hn⟩ := h.there
    obtain ⟨c, hc, -⟩ := Option.bind_eq_some_iff.mp hn
    have hchild : Locator.walk (at_ ++ [s]) d = some c := by rw [Locator.walk_snoc, hat, Option.bind_some, hc]
    rw [armsFrom, choiceAt, hat]
    cases node with
    | null | bool _ | num _ | str _ => cases s <;> cases hc
    | arr items =>
      cases s with
      | key k => cases hc
      | index m =>
        obtain ⟨_, _, heq, hp⟩ := keyed_arr h
        cases heq
        obtain ⟨c', hc', hk⟩ := (keyed_cons hp).mp h
        rw [hc] at hc'
        cases hc'
        have hbelow : around + e.armsFrom d _ p ≤ e.deepest around c := ih hchild hk
        have hle : e.deepest around c ≤ deepestItems e around items := le_deepestItems (List.mem_of_getElem? hc)
        rw [deepest]
        simp only [Bool.false_and, Bool.false_eq_true, if_false]
        omega
    | obj members =>
      cases s with
      | index m => cases hc
      | key l =>
        obtain ⟨hkey, hvalue⟩ : _ ∧ _ ≤ deepestMembers e around (e.isChoice members) members :=
          le_deepestMembers (Members.mem_of_get? hc)
        rw [deepest]
        change around + ((if e.isChoice members && isArm l then 1 else 0) + _) ≤ _
        cases p with
        | nil =>
          have hs := ((keyed_key (q := [])).mp h).1
          rw [isArm_of_shaped hs, Bool.and_false, armsFrom]
          exact hkey hs
        | cons t p =>
          obtain ⟨c', hc', hk⟩ := (keyed_cons (by simp)).mp h
          rw [hc] at hc'
          cases hc'
          refine Nat.le_trans ?_ hvalue
          have hbelow : (if e.isChoice members && isArm l then around + 1 else around) + e.armsFrom d _ (t :: p) ≤ _ :=
            ih hchild hk
          revert hbelow
          cases e.isChoice members && isArm l with
          | false =>
            simp only [Bool.false_eq_true, if_false]
            omega
          | true =>
            simp only [if_true]
            omega

/-- No shaped key has more arms around it than the deepest one. -/
theorem arms_le_deepest (h : e.Keyed d p) : e.arms d p ≤ e.deepest 0 d := by
  have hle : 0 + e.armsFrom d [] p ≤ e.deepest 0 d := armsFrom_le_deepest rfl h
  rwa [Nat.zero_add] at hle

end DocExpand.Engine
