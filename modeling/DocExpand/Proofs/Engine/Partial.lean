/-
  DocExpand.Proofs.Engine.Partial — one invocation more.

  When an invocation is carried out while none around it is, the evaluation changes at its
  place alone: the node there becomes its outcome and its argument sibling goes
  (`openMembers_step`, `openItems_step`). Through the nodes on the way to the place that is
  a change of the whole document (`open?_step`).
-/

import DocExpand.Proofs.Engine.Evaluation
import DocExpand.Proofs.Engine.Scanned

namespace DocExpand.Engine

variable {e : Engine} {strict : Bool} {done done' : Locator → Bool} {at_ : Locator}

/-! ## Members -/

theorem siblingKey_inj {k l : String} (h : e.siblingKey k = e.siblingKey l) : k = l := by
  unfold siblingKey at h
  have := congrArg String.toList h
  rw [String.toList_append, String.toList_append] at this
  exact String.toList_inj.mp (List.append_cancel_right this)

theorem siblingKey_ne (hs : e.config.argsSuffix ≠ "") (k : String) : e.siblingKey k ≠ k := by
  intro h
  have := lt_append_suffix k hs
  rw [siblingKey] at h
  rw [h] at this
  exact String.lt_irrefl k this

theorem isArm_of_shaped {key : String} (hk : Directive.isShaped key e.config.domain = true) : isArm key = false := by
  obtain ⟨front, word, heq, -⟩ := Directive.shaped_ends hk
  have hdot : '.' ∈ key.toList := by simp [heq]
  refine Bool.eq_false_iff.mpr fun ha => ?_
  rw [isArm, Bool.or_eq_true, beq_iff_eq, beq_iff_eq] at ha
  rcases ha with rfl | rfl
  · exact absurd hdot (by decide +kernel)
  · exact absurd hdot (by decide +kernel)

/-- No key with the usual suffix is shaped like a directive. -/
theorem siblingKey_unshaped (hsuffix : e.config.argsSuffix = "_args") (key : String) :
    Directive.isShaped (e.siblingKey key) e.config.domain = false := by
  refine Bool.eq_false_iff.mpr fun hk => ?_
  obtain ⟨front, word, heq, hword⟩ := Directive.shaped_ends hk
  rw [siblingKey, hsuffix, String.toList_append, List.append_eq_append_iff] at heq
  have hargs : "_args".toList = ['_', 'a', 'r', 'g', 's'] := by decide +kernel
  rcases heq with ⟨y, -, hy⟩ | ⟨y, -, hy⟩
  · have : '.' ∈ "_args".toList := by simp [hy]
    exact absurd this (by decide +kernel)
  · cases y with
    | nil =>
      rw [List.nil_append, hargs] at hy
      cases hy
    | cons c y =>
      rw [List.cons_append, List.cons.injEq, hargs] at hy
      have := hword '_' (by rw [hy.2]; simp)
      exact absurd this (by decide)

theorem siblingKey_not_arm (hsuffix : e.config.argsSuffix = "_args") (key : String) : isArm (e.siblingKey key) = false := by
  refine Bool.eq_false_iff.mpr fun ha => ?_
  have hlast : (e.siblingKey key).toList.getLast? = some 's' := by
    have hargs : "_args".toList = ['_', 'a', 'r', 'g'] ++ ['s'] := by decide +kernel
    rw [siblingKey, hsuffix, String.toList_append, hargs, ← List.append_assoc, List.getLast?_concat]
  rw [isArm, Bool.or_eq_true, beq_iff_eq, beq_iff_eq] at ha
  rcases ha with ha | ha
  · rw [ha] at hlast
    exact absurd hlast (by decide +kernel)
  · rw [ha] at hlast
    exact absurd hlast (by decide +kernel)

theorem leave_eq (done : Locator → Bool) (at_ : Locator) (key : String) (node : Json) (ms : Members Json) :
    e.leave done at_ key node ms =
      if done at_ && e.takes node then Members.put (e.siblingKey key) none ms else ms := rfl

theorem leave_ascending {ms : Members Json} (h : Members.Ascending ms) (key : String) (node : Json) :
    Members.Ascending (e.leave done at_ key node ms) := by
  rw [leave_eq]
  split
  · exact h.put none
  · exact h

theorem keys_leave {ms : Members Json} {key k : String} {node : Json}
    (h : k ∈ Members.keys (e.leave done at_ key node ms)) : k ∈ Members.keys ms := by
  rw [leave_eq] at h
  split at h
  · exact (Members.erase_sublist.map Prod.fst).mem h
  · exact h

/-- Evaluation keeps the order of the members and adds no key. -/
theorem openMembers_keys {ms : List (String × Json)} {skip : Bool} {r : Members Json} (ha : Members.Ascending ms)
    (h : openMembers e strict done at_ skip ms = some r) :
    Members.Ascending r ∧ ∀ k ∈ Members.keys r, k ∈ Members.keys ms := by
  induction ms generalizing r with
  | nil =>
    cases h
    exact ⟨ha, fun _ hk => hk⟩
  | cons m rest ih =>
    obtain ⟨key, node⟩ := m
    cases harm : skip && isArm key with
    | true =>
      rw [openMembers_cons_arm harm] at h
      obtain ⟨after, hr, rfl⟩ := Option.map_eq_some_iff.mp h
      obtain ⟨hasc, hsub⟩ := ih ha.tail hr
      refine ⟨Members.ascending_cons.mpr ⟨fun k hk => ha.head_lt k (hsub k hk), hasc⟩, fun k hk => ?_⟩
      rcases List.mem_cons.mp hk with rfl | hk
      · exact List.mem_cons_self ..
      · exact List.mem_cons_of_mem _ (hsub k hk)
    | false =>
      rw [openMembers_cons harm] at h
      obtain ⟨after, hr, h⟩ := Option.bind_eq_some_iff.mp h
      obtain ⟨opened, -, h⟩ := Option.bind_eq_some_iff.mp h
      obtain ⟨slot, -, rfl⟩ := Option.map_eq_some_iff.mp h
      obtain ⟨hasc, hsub⟩ := ih ha.tail hr
      have hlt : ∀ k ∈ Members.keys (e.leave done (at_ ++ [.key key]) key node after), key < k :=
        fun k hk => ha.head_lt k (hsub k (keys_leave hk))
      rw [← Members.put_of_forall_lt hlt]
      refine ⟨(leave_ascending hasc key node).put slot, fun k hk => ?_⟩
      rcases Members.mem_keys_put hk with rfl | hk
      · exact List.mem_cons_self ..
      · exact List.mem_cons_of_mem _ (hsub k (keys_leave hk))

/-- One member, in front of the evaluated rest. -/
theorem openMembers_cons_put {ms : List (String × Json)} {skip : Bool} {key : String} {node : Json}
    (ha : Members.Ascending ((key, node) :: ms)) (harm : (skip && isArm key) = false) :
    openMembers e strict done at_ skip ((key, node) :: ms) =
      (openMembers e strict done at_ skip ms).bind fun after =>
        (e.open? strict done (at_ ++ [.key key]) node).bind fun opened =>
          (e.carry strict done (at_ ++ [.key key]) (e.beside key ms after) node opened).map fun slot =>
            Members.put key slot (e.leave done (at_ ++ [.key key]) key node after) := by
  rw [openMembers_cons harm]
  refine Option.bind_congr fun after hr => ?_
  have hsub := (openMembers_keys ha.tail hr).2
  simp only [Members.put_of_forall_lt fun k hk => ha.head_lt k (hsub k (keys_leave hk))]

theorem carry_beside {node : Json} (h : done at_ = true → e.takes node = false) (b b' : Option Slot) (opened : Json) :
    e.carry strict done at_ b node opened = e.carry strict done at_ b' node opened := by
  cases hd : done at_ with
  | false => rw [carry_pending hd, carry_pending hd]
  | true =>
    have ht := h hd
    unfold takes at ht
    rw [carry, carry, hd]
    cases hh : e.host? node with
    | none => rfl
    | some x =>
      obtain ⟨d, key, written⟩ := x
      rw [hh] at ht
      have hw : written ≠ .bool true := by simpa using ht
      simp only [argumentOf, if_neg hw]

/-- The members after the invocation at `key` is carried out, and its parts before that changed by `g`. -/
def stepMembers (e : Engine) (strict : Bool) (done : Locator → Bool) (at_ : Locator) (key : String) (node : Json)
    (written : List (String × Json)) (g : Json → Option Json) (ms : Members Json) : Option (Members Json) :=
  (Members.get? key ms).bind fun opened => (g opened).bind fun opened' =>
    (e.carry strict done (at_ ++ [.key key]) (e.beside key written ms) node opened').map fun slot =>
      e.leave done (at_ ++ [.key key]) key node (Members.put key slot ms)

theorem leave_put {ms : Members Json} (h : Members.Ascending ms) {key k : String} {node : Json} (slot : Slot)
    (hne : done at_ = true → e.takes node = true → e.siblingKey key ≠ k) :
    e.leave done at_ key node (Members.put k slot ms) = Members.put k slot (e.leave done at_ key node ms) := by
  rw [leave_eq, leave_eq]
  split
  · rename_i hc
    rw [Bool.and_eq_true] at hc
    exact Members.put_comm h (hne hc.1 hc.2) none slot
  · rfl

theorem leave_leave {ms : Members Json} (h : Members.Ascending ms) {p q : Locator} {key k : String} {node x : Json}
    (hne : key ≠ k) :
    e.leave done p key node (e.leave done' q k x ms) = e.leave done' q k x (e.leave done p key node ms) := by
  rw [leave_eq done' q k x ms, leave_eq done' q k x (e.leave done p key node ms)]
  split
  · exact leave_put h none fun _ _ hk => hne (siblingKey_inj hk)
  · rfl

theorem get?_leave_of_ne {ms : Members Json} {key k : String} {node : Json}
    (hne : done at_ = true → e.takes node = true → e.siblingKey key ≠ k) :
    Members.get? k (e.leave done at_ key node ms) = Members.get? k ms := by
  rw [leave_eq]
  split
  · rename_i hc
    rw [Bool.and_eq_true] at hc
    exact Members.get?_put_of_ne (hne hc.1 hc.2) none
  · rfl

theorem beside_cons {key : String} {node : Json} {rest : List (String × Json)}
    {ms after : Members Json} (h : Members.get? (e.siblingKey key) ms = Members.get? (e.siblingKey key) after)
    {k : String} (hk : k ≠ e.siblingKey key) : e.beside key ((k, node) :: rest) ms = e.beside key rest after := by
  unfold beside Members.contains
  rw [Members.get?_cons_of_ne hk, h]

theorem get?_stepMembers_of_ne {key k : String} {node : Json} {written : List (String × Json)}
    {g : Json → Option Json} {ms ms' : Members Json} (h : e.stepMembers strict done at_ key node written g ms = some ms')
    (hne : key ≠ k) (hnes : e.siblingKey key ≠ k) : Members.get? k ms' = Members.get? k ms := by
  obtain ⟨opened, -, h⟩ := Option.bind_eq_some_iff.mp h
  obtain ⟨opened', -, h⟩ := Option.bind_eq_some_iff.mp h
  obtain ⟨slot, -, rfl⟩ := Option.map_eq_some_iff.mp h
  rw [get?_leave_of_ne fun _ _ => hnes, Members.get?_put_of_ne hne]

theorem stepMembers_keys {key : String} {node : Json} {written : List (String × Json)} {g : Json → Option Json}
    {ms ms' : Members Json} (h : e.stepMembers strict done at_ key node written g ms = some ms') {k : String}
    (hk : k ∈ Members.keys ms') : k = key ∨ k ∈ Members.keys ms := by
  obtain ⟨opened, -, h⟩ := Option.bind_eq_some_iff.mp h
  obtain ⟨opened', -, h⟩ := Option.bind_eq_some_iff.mp h
  obtain ⟨slot, -, rfl⟩ := Option.map_eq_some_iff.mp h
  exact Members.mem_keys_put (keys_leave hk)

/-- Another member in front is left alone. -/
theorem stepMembers_put {key k : String} {node x : Json} {rest : List (String × Json)} {g : Json → Option Json}
    {after : Members Json} (ha : Members.Ascending after) (hne : k ≠ key) (hnes : k ≠ e.siblingKey key)
    (hfree : done (at_ ++ [.key k]) = true → e.takes x = true → e.siblingKey k ≠ key) (slot : Slot) :
    e.stepMembers strict done' at_ key node ((k, x) :: rest) g
        (Members.put k slot (e.leave done (at_ ++ [.key k]) k x after)) =
      (e.stepMembers strict done' at_ key node rest g after).map fun ms =>
        Members.put k slot (e.leave done (at_ ++ [.key k]) k x ms) := by
  have hl : Members.Ascending (e.leave done (at_ ++ [.key k]) k x after) := leave_ascending ha k x
  have hget : Members.get? key (Members.put k slot (e.leave done (at_ ++ [.key k]) k x after)) =
      Members.get? key after := by
    rw [Members.get?_put_of_ne hne, get?_leave_of_ne hfree]
  have hsib : Members.get? (e.siblingKey key) (Members.put k slot (e.leave done (at_ ++ [.key k]) k x after)) =
      Members.get? (e.siblingKey key) after := by
    rw [Members.get?_put_of_ne hnes, get?_leave_of_ne fun _ _ h => hne (siblingKey_inj h)]
  rw [stepMembers, stepMembers, hget, beside_cons hsib hnes, Option.map_bind]
  refine Option.bind_congr fun opened _ => ?_
  rw [Function.comp_apply, Option.map_bind]
  refine Option.bind_congr fun opened' _ => ?_
  rw [Function.comp_apply, Option.map_map]
  congr 1
  funext slot'
  rw [Function.comp_apply, Members.put_comm hl (Ne.symm hne), ← leave_put ha slot' hfree,
    leave_put (leave_ascending (ha.put slot') k x) slot fun _ _ h => hnes h.symm, leave_leave (ha.put slot') (Ne.symm hne)]

section Step

variable (hs : e.config.argsSuffix ≠ "") {skip : Bool} {key : String} {node : Json} {g : Json → Option Json}

include hs

theorem openMembers_step_here {rest : List (String × Json)} (ha : Members.Ascending ((key, node) :: rest))
    (harm : (skip && isArm key) = false)
    (hothers : ∀ m ∈ rest, (skip && isArm m.1) = false → e.Agree done done' (at_ ++ [.key m.1]) m.2)
    (hk : done (at_ ++ [.key key]) = false)
    (hg : e.open? strict done' (at_ ++ [.key key]) node = (e.open? strict done (at_ ++ [.key key]) node).bind g) :
    openMembers e strict done' at_ skip ((key, node) :: rest) =
      (openMembers e strict done at_ skip ((key, node) :: rest)).bind (e.stepMembers strict done' at_ key node ((key, node) :: rest) g) := by
  rw [openMembers_cons_put ha harm, openMembers_cons_put ha harm, ← openMembers_congr rest hothers, hg, Option.bind_assoc]
  refine Option.bind_congr fun after hr => ?_
  obtain ⟨hasc, hsub⟩ := openMembers_keys ha.tail hr
  rw [Option.bind_assoc, Option.bind_assoc]
  refine Option.bind_congr fun opened _ => ?_
  rw [carry_pending hk, Option.map_some, Option.bind_some, leave_pending hk, stepMembers, Members.get?_put_self hasc,
    Option.bind_some]
  refine Option.bind_congr fun opened' _ => ?_
  have hbeside : e.beside key ((key, node) :: rest) (Members.put key (some opened) after) = e.beside key rest after :=
    beside_cons (Members.get?_put_of_ne (siblingKey_ne hs key).symm _) (siblingKey_ne hs key).symm
  rw [hbeside]
  congr 1
  funext slot
  rw [Members.put_put hasc, leave_put hasc slot fun _ _ => siblingKey_ne hs key]

/-- A key in front of another is neither it nor the key of its argument sibling. -/
theorem ne_of_front {k : String} {x : Json} {rest : List (String × Json)} (ha : Members.Ascending ((k, x) :: rest))
    (hm : (key, node) ∈ rest) : k ≠ key ∧ k ≠ e.siblingKey key := by
  have hlt : k < key := ha.head_lt key (Members.mem_keys_of_mem hm)
  constructor
  · rintro rfl
    exact String.lt_irrefl k hlt
  · intro h
    have hback := String.lt_trans hlt (lt_append_suffix key hs)
    rw [← siblingKey, ← h] at hback
    exact String.lt_irrefl k hback

/-- An arm in front stays as it is written. -/
theorem openMembers_step_arm {k : String} {x : Json} {rest : List (String × Json)}
    (ha : Members.Ascending ((k, x) :: rest)) (hm : (key, node) ∈ rest) (hx : (skip && isArm k) = true)
    (hrest : openMembers e strict done' at_ skip rest =
      (openMembers e strict done at_ skip rest).bind (e.stepMembers strict done' at_ key node rest g)) :
    openMembers e strict done' at_ skip ((k, x) :: rest) =
      (openMembers e strict done at_ skip ((k, x) :: rest)).bind (e.stepMembers strict done' at_ key node ((k, x) :: rest) g) := by
  obtain ⟨hne, hnes⟩ := ne_of_front hs ha hm
  rw [openMembers_cons_arm hx, openMembers_cons_arm hx, hrest, Option.map_bind, Option.bind_map]
  refine Option.bind_congr fun after hr => ?_
  obtain ⟨hasc, hsub⟩ := openMembers_keys ha.tail hr
  have hput : ∀ ms : Members Json, (∀ l ∈ Members.keys ms, k < l) →
      (k, x) :: ms = Members.put k (some x) (e.leave (fun _ => false) (at_ ++ [.key k]) k x ms) := by
    intro ms hms
    rw [leave_pending rfl, Members.put_of_forall_lt hms]
    rfl
  change _ = e.stepMembers strict done' at_ key node ((k, x) :: rest) g ((k, x) :: after)
  rw [hput after fun l hl => ha.head_lt l (hsub l hl), stepMembers_put hasc hne hnes fun h => absurd h Bool.false_ne_true]
  refine Option.map_congr fun after' hstep => hput after' fun l hl => ?_
  rcases stepMembers_keys hstep hl with rfl | hl
  · exact ha.head_lt l (Members.mem_keys_of_mem hm)
  · exact ha.head_lt l (hsub l hl)

/-- A member in front sees the same sibling before and after the step. -/
theorem openMembers_step_behind {k : String} {x : Json} {rest : List (String × Json)}
    (ha : Members.Ascending ((k, x) :: rest)) (hm : (key, node) ∈ rest) (hx : (skip && isArm k) = false)
    (hagree : e.Agree done done' (at_ ++ [.key k]) x)
    (hfree : done (at_ ++ [.key k]) = true → e.takes x = true → e.siblingKey k ≠ key)
    (hrest : openMembers e strict done' at_ skip rest =
      (openMembers e strict done at_ skip rest).bind (e.stepMembers strict done' at_ key node rest g)) :
    openMembers e strict done' at_ skip ((k, x) :: rest) =
      (openMembers e strict done at_ skip ((k, x) :: rest)).bind (e.stepMembers strict done' at_ key node ((k, x) :: rest) g) := by
  obtain ⟨hne, hnes⟩ := ne_of_front hs ha hm
  rw [openMembers_cons_put ha hx, openMembers_cons_put ha hx, hrest, Option.bind_assoc, Option.bind_assoc]
  refine Option.bind_congr fun after hr => ?_
  have hasc := (openMembers_keys ha.tail hr).1
  rw [← open?_congr x fun rel target _ hv hh => hagree rel target hv hh]
  simp only [← leave_congr hagree.here, Option.bind_assoc, Option.bind_map, Function.comp_def,
    stepMembers_put hasc hne hnes hfree]
  have hcarry : ∀ after' opened, e.stepMembers strict done' at_ key node rest g after = some after' →
      e.carry strict done' (at_ ++ [.key k]) (e.beside k rest after') x opened =
        e.carry strict done (at_ ++ [.key k]) (e.beside k rest after) x opened := by
    intro after' opened hstep
    rw [← carry_congr hagree.here]
    by_cases hsk : key = e.siblingKey k
    · exact carry_beside (fun hd => Bool.eq_false_iff.mpr fun ht => hfree hd ht hsk.symm) _ _ _
    · have hget := get?_stepMembers_of_ne hstep hsk fun h => hne (siblingKey_inj h).symm
      rw [beside, beside, hget]
  cases hstep : e.stepMembers strict done' at_ key node rest g after with
  | none =>
    simp only [Option.bind_none, Option.map_none]
    cases e.open? strict done (at_ ++ [.key k]) x with
    | none => rfl
    | some opened =>
      rw [Option.bind_some]
      cases e.carry strict done (at_ ++ [.key k]) (e.beside k rest after) x opened <;> rfl
  | some after' =>
    rw [Option.bind_some]
    refine Option.bind_congr fun opened _ => ?_
    rw [hcarry after' opened hstep]
    cases e.carry strict done (at_ ++ [.key k]) (e.beside k rest after) x opened <;> rfl

/-- Carrying out the invocation at one member changes that member and takes its sibling. -/
theorem openMembers_step {ms : List (String × Json)} (ha : Members.Ascending ms) (hm : (key, node) ∈ ms)
    (harm : (skip && isArm key) = false)
    (hothers : ∀ m ∈ ms, m.1 ≠ key → (skip && isArm m.1) = false → e.Agree done done' (at_ ++ [.key m.1]) m.2)
    (hfree : ∀ m ∈ ms, e.siblingKey m.1 = key → (skip && isArm m.1) = false → done (at_ ++ [.key m.1]) = true →
      e.takes m.2 = false)
    (hk : done (at_ ++ [.key key]) = false)
    (hg : e.open? strict done' (at_ ++ [.key key]) node = (e.open? strict done (at_ ++ [.key key]) node).bind g) :
    openMembers e strict done' at_ skip ms = (openMembers e strict done at_ skip ms).bind (e.stepMembers strict done' at_ key node ms g) := by
  induction ms with
  | nil => cases hm
  | cons m rest ih =>
    obtain ⟨k, x⟩ := m
    rcases List.mem_cons.mp hm with hm | hm
    · cases hm
      refine openMembers_step_here hs ha harm (fun m hm hn => ?_) hk hg
      exact hothers m (List.mem_cons_of_mem _ hm) (fun h => ha.not_mem (h ▸ Members.mem_keys_of_mem hm)) hn
    · have hrest := ih ha.tail hm (fun m hm => hothers m (List.mem_cons_of_mem _ hm))
        (fun m hm => hfree m (List.mem_cons_of_mem _ hm))
      cases hx : skip && isArm k with
      | true => exact openMembers_step_arm hs ha hm hx hrest
      | false =>
        have hagree := hothers (k, x) (List.mem_cons_self ..) (ne_of_front hs ha hm).1 hx
        refine openMembers_step_behind hs ha hm hx hagree (fun hd ht hk' => ?_) hrest
        rw [hfree (k, x) (List.mem_cons_self ..) hk' hx hd] at ht
        cases ht

end Step

/-! ## Items -/

/-- The items after the invocation at a position is carried out, and its parts before that changed by `g`. -/
def stepItems (e : Engine) (strict : Bool) (done : Locator → Bool) (place : Locator) (n : Nat) (node : Json) (g : Json → Option Json)
    (items : List Json) : Option (List Json) :=
  items[n]?.bind fun opened => (g opened).bind fun opened' =>
    (e.carry strict done place none node opened').map fun slot => items.set n (slot.getD .null)

theorem openItems_bind (done : Locator → Bool) (at_ : Locator) (position : Nat) (item : Json) (rest : List Json) :
    openItems e strict done at_ position (item :: rest) =
      (e.open? strict done (at_ ++ [.index position]) item).bind fun opened =>
        (e.carry strict done (at_ ++ [.index position]) none item opened).bind fun slot =>
          (openItems e strict done at_ (position + 1) rest).map fun after => slot.getD .null :: after := by
  rw [openItems]
  cases e.open? strict done (at_ ++ [.index position]) item with
  | none => rfl
  | some opened =>
    simp only [Option.bind_eq_bind, Option.bind_some]
    cases e.carry strict done (at_ ++ [.index position]) none item opened with
    | none => rfl
    | some slot =>
      rw [Option.bind_some, Option.bind_some]
      cases openItems e strict done at_ (position + 1) rest <;> rfl

theorem openItems_step_here {position : Nat} {node : Json} {rest : List Json} {g : Json → Option Json}
    (hrest : openItems e strict done at_ (position + 1) rest = openItems e strict done' at_ (position + 1) rest)
    (hk : done (at_ ++ [.index position]) = false)
    (hg : e.open? strict done' (at_ ++ [.index position]) node = (e.open? strict done (at_ ++ [.index position]) node).bind g) :
    openItems e strict done' at_ position (node :: rest) =
      (openItems e strict done at_ position (node :: rest)).bind (e.stepItems strict done' (at_ ++ [.index position]) 0 node g) := by
  rw [openItems_bind, openItems_bind, Option.bind_assoc, hg, Option.bind_assoc, ← hrest]
  refine Option.bind_congr fun opened _ => ?_
  rw [carry_pending hk, Option.bind_some, Option.bind_map]
  cases openItems e strict done at_ (position + 1) rest with
  | none =>
    rw [Option.bind_none]
    cases g opened with
    | none => rfl
    | some opened' =>
      rw [Option.bind_some]
      cases e.carry strict done' (at_ ++ [.index position]) none node opened' <;> rfl
  | some after =>
    rw [Option.bind_some]
    refine Option.bind_congr fun opened' _ => ?_
    cases e.carry strict done' (at_ ++ [.index position]) none node opened' <;> rfl

theorem openItems_step_behind {position n : Nat} {place : Locator} {item node : Json} {rest : List Json} {g : Json → Option Json}
    (hagree : e.Agree done done' (at_ ++ [.index position]) item)
    (hrest : openItems e strict done' at_ (position + 1) rest =
      (openItems e strict done at_ (position + 1) rest).bind (e.stepItems strict done' place n node g)) :
    openItems e strict done' at_ position (item :: rest) =
      (openItems e strict done at_ position (item :: rest)).bind (e.stepItems strict done' place (n + 1) node g) := by
  rw [openItems_bind, openItems_bind, Option.bind_assoc, hrest,
    open?_congr item fun rel target _ hv hh => hagree rel target hv hh]
  refine Option.bind_congr fun opened _ => ?_
  rw [carry_congr hagree.here, Option.bind_assoc]
  refine Option.bind_congr fun slot _ => ?_
  rw [Option.map_bind, Option.bind_map]
  refine Option.bind_congr fun after _ => ?_
  rw [Function.comp_apply, Function.comp_apply, stepItems, stepItems, List.getElem?_cons_succ, Option.map_bind]
  refine Option.bind_congr fun o _ => ?_
  rw [Function.comp_apply, Option.map_bind]
  refine Option.bind_congr fun o' _ => ?_
  rw [Function.comp_apply, Option.map_map]
  rfl

/-- Carrying out the invocation at one item changes that item. -/
theorem openItems_step (position : Nat) {items : List Json} {n : Nat} {node : Json} {g : Json → Option Json}
    (hn : items[n]? = some node)
    (hothers : ∀ m item, items[m]? = some item → m ≠ n → e.Agree done done' (at_ ++ [.index (position + m)]) item)
    (hk : done (at_ ++ [.index (position + n)]) = false)
    (hg : e.open? strict done' (at_ ++ [.index (position + n)]) node = (e.open? strict done (at_ ++ [.index (position + n)]) node).bind g) :
    openItems e strict done' at_ position items =
      (openItems e strict done at_ position items).bind (e.stepItems strict done' (at_ ++ [.index (position + n)]) n node g) := by
  induction items generalizing n position with
  | nil => cases hn
  | cons item rest ih =>
    have hshift : ∀ m, position + (m + 1) = position + 1 + m := fun m => by omega
    cases n with
    | zero =>
      cases hn
      rw [Nat.add_zero] at hk hg ⊢
      refine openItems_step_here (openItems_congr rest fun m x hx => ?_) hk hg
      rw [← hshift]
      exact hothers (m + 1) x hx (Nat.succ_ne_zero m)
    | succ n =>
      rw [hshift] at hk hg ⊢
      refine openItems_step_behind (hothers 0 item rfl (Nat.succ_ne_zero n).symm) (ih (position + 1) hn (fun m x hx hne => ?_) hk hg)
      rw [← hshift]
      exact hothers (m + 1) x hx (by omega)

/-! ## The way to a place -/

/-- What carrying out the invocation at a child makes of the evaluated parent. -/
def stepChild (e : Engine) (strict : Bool) (done : Locator → Bool) (at_ : Locator) (parent : Json) (s : Segment) (node : Json)
    (g : Json → Option Json) (opened : Json) : Option Json :=
  match parent, s, opened with
  | .obj written, .key key, .obj ms => (e.stepMembers strict done at_ key node written g ms).map .obj
  | .arr _, .index n, .arr items => (e.stepItems strict done (at_ ++ [.index n]) n node g items).map .arr
  | _, _, _ => none

/-- `opened` is the node with its parts evaluated: a node of the same kind. -/
def Like : Json → Json → Prop
  | .obj _, opened => ∃ ms, opened = .obj ms
  | .arr _, opened => ∃ items, opened = .arr items
  | j, opened => opened = j

theorem open?_like {node opened : Json} (h : e.open? strict done at_ node = some opened) : Like node opened := by
  cases node with
  | obj members =>
    rw [open?] at h
    split at h
    · cases h
    · obtain ⟨ms, -, rfl⟩ := Option.map_eq_some_iff.mp h
      exact ⟨ms, rfl⟩
  | arr items =>
    rw [open?] at h
    obtain ⟨js, -, rfl⟩ := Option.map_eq_some_iff.mp h
    exact ⟨js, rfl⟩
  | null | bool _ | num _ | str _ =>
    cases h
    rfl

/-- No consumer beside the child has taken it. -/
def Untaken (e : Engine) (done : Locator → Bool) (at_ : Locator) (parent : Json) (s : Segment) : Prop :=
  ∀ members, parent = .obj members → ∀ m ∈ members, s = .key (e.siblingKey m.1) → done (at_ ++ [.key m.1]) = true →
    e.takes m.2 = false

section Way

variable (hs : e.config.argsSuffix ≠ "")

include hs

/-- One invocation more, at or beneath a child. -/
theorem open?_child {parent node : Json} {s : Segment} {g : Json → Option Json} (ho : parent.Ordered)
    (hv : e.Visited parent [s] node) (hsame : ∀ p, ¬ (at_ ++ [s]) <+: p → done p = done' p)
    (hfree : Untaken e done at_ parent s) (hk : done (at_ ++ [s]) = false)
    (hg : e.open? strict done' (at_ ++ [s]) node = (e.open? strict done (at_ ++ [s]) node).bind g) :
    e.open? strict done' at_ parent = (e.open? strict done at_ parent).bind (e.stepChild strict done' at_ parent s node g) := by
  have hother : ∀ (t : Segment) (x : Json), t ≠ s → e.Agree done done' (at_ ++ [t]) x := by
    intro t x hne rel target _ _
    refine hsame _ fun hp => ?_
    rw [List.append_assoc, List.prefix_append_right_inj] at hp
    obtain ⟨r, hr⟩ := hp
    cases hr
    exact hne rfl
  cases hv with
  | @item items n _ _ _ hi hv =>
    cases hv
    have hstep := openItems_step 0 hi (fun m x hx hne => hother _ x (by simpa using hne))
      (by rwa [Nat.zero_add]) (by rwa [Nat.zero_add])
    rw [open?, open?, hstep, Option.map_bind, Option.bind_map]
    refine Option.bind_congr fun items' _ => ?_
    rw [Nat.zero_add]
    rfl
  | @member members key _ _ _ hm ha hv =>
    cases hv
    have hstep := openMembers_step hs ho.1 hm ha (fun m _ hne _ => hother _ m.2 (by simpa using hne))
      (fun m hm hsk _ hd => hfree members rfl m hm (by rw [hsk]) hd) hk hg
    rw [open?, open?]
    cases e.invocation? members with
    | none => rfl
    | some found =>
      simp only
      rw [hstep, Option.map_bind, Option.bind_map]
      rfl

omit hs in
/-- At a child that is not carried out, the change is the child's own. -/
theorem stepChild_pending {parent node opened : Json} {s : Segment} {g : Json → Option Json}
    (hv : e.Visited parent [s] node) (hl : Like parent opened) (hk : done (at_ ++ [s]) = false) :
    e.stepChild strict done at_ parent s node g opened = (opened.child? s).bind fun c => (g c).bind (opened.setChild? s) := by
  cases hv with
  | @item items n _ _ _ hi hv =>
    obtain ⟨js, rfl⟩ := hl
    change (e.stepItems strict done _ n node g js).map Json.arr = (js[n]?).bind _
    rw [stepItems, Option.map_bind]
    refine Option.bind_congr fun c hc => ?_
    rw [Function.comp_apply, Option.map_bind]
    refine Option.bind_congr fun c' _ => ?_
    have hlt : n < js.length := (List.getElem?_eq_some_iff.mp hc).1
    rw [Function.comp_apply, carry_pending hk, Json.setChild?, Segment.index?, Option.bind_some, if_pos hlt]
    rfl
  | @member members key _ _ _ hm ha hv =>
    obtain ⟨ms, rfl⟩ := hl
    change (e.stepMembers strict done at_ key node members g ms).map Json.obj = (Members.get? key ms).bind _
    rw [stepMembers, Option.map_bind]
    refine Option.bind_congr fun c _ => ?_
    rw [Function.comp_apply, Option.map_bind]
    refine Option.bind_congr fun c' _ => ?_
    rw [Function.comp_apply, carry_pending hk, Option.map_some, Option.map_some, leave_pending hk]
    rfl

/-- A change beneath a child that is not carried out is a change beneath the node. -/
theorem open?_under {top child : Json} {s : Segment} {q : Locator} {f : Json → Option Json} (ho : top.Ordered)
    (hv : e.Visited top [s] child) (hsame : ∀ p, ¬ (at_ ++ [s]) <+: p → done p = done' p)
    (hfree : Untaken e done at_ top s) (hk : done (at_ ++ [s]) = false) (hk' : done' (at_ ++ [s]) = false)
    (hg : e.open? strict done' (at_ ++ [s]) child = (e.open? strict done (at_ ++ [s]) child).bind (Locator.modify? f q)) :
    e.open? strict done' at_ top = (e.open? strict done at_ top).bind (Locator.modify? f (s :: q)) := by
  rw [open?_child hs ho hv hsame hfree hk hg]
  refine Option.bind_congr fun opened hopen => ?_
  rw [stepChild_pending hv (open?_like hopen) hk', Locator.modify?_cons]

/-- One invocation more is one change of the parent of its place. -/
theorem open?_step {top parent node : Json} {q : Locator} {s : Segment} (ho : top.Ordered)
    (hv : e.Visited top q parent) (hc : e.Visited parent [s] node)
    (hsame : ∀ p, p ≠ at_ ++ q ++ [s] → done p = done' p)
    (hclear : ∀ p, p ≠ [] → p <+: q ++ [s] → done (at_ ++ p) = false)
    (hfree : ∀ p t x, p ++ [t] <+: q ++ [s] → e.Visited top p x → Untaken e done (at_ ++ p) x t) :
    e.open? strict done' at_ top =
      (e.open? strict done at_ top).bind (Locator.modify? (e.stepChild strict done' (at_ ++ q) parent s node some) q) := by
  induction q generalizing at_ top with
  | nil =>
    cases hv
    rw [List.append_nil] at hsame ⊢
    have hk := hclear [s] (List.cons_ne_nil _ _) (List.prefix_refl _)
    have hu := hfree [] s parent (List.prefix_refl _) (.here parent)
    rw [List.append_nil] at hu
    have hsame' : ∀ p, ¬ (at_ ++ [s]) <+: p → done p = done' p :=
      fun p hp => hsame p fun h => hp (h ▸ List.prefix_refl _)
    have hopen : e.open? strict done' (at_ ++ [s]) node = (e.open? strict done (at_ ++ [s]) node).bind some := by
      rw [Option.bind_fun_some]
      exact open?_congr node fun rel target hne _ _ => (hsame _ (by simpa using hne)).symm
    exact open?_child hs ho hc hsame' hu hk hopen
  | cons t q ih =>
    obtain ⟨child, hv1, hv2⟩ := Visited.split (p := [t]) hv
    have hplace : at_ ++ (t :: q) = at_ ++ [t] ++ q := by rw [List.append_assoc, List.singleton_append]
    have hpre : [t] <+: t :: q ++ [s] := ⟨q ++ [s], rfl⟩
    have hk := hclear [t] (List.cons_ne_nil _ _) hpre
    have hne : at_ ++ [t] ≠ at_ ++ (t :: q) ++ [s] := by simp
    have hu := hfree [] t top hpre (.here top)
    rw [List.append_nil] at hu
    rw [hplace] at hsame ⊢
    refine open?_under hs ho hv1 (fun p hp => hsame p fun h => hp ?_) hu hk ?_ (ih (hv1.resolve ho).2 hv2 hsame ?_ ?_)
    · rw [h, List.append_assoc]
      exact List.prefix_append ..
    · rw [← hsame _ (by rwa [← hplace]), hk]
    · intro p _ hp
      rw [List.append_assoc, List.singleton_append]
      exact hclear (t :: p) (List.cons_ne_nil _ _) (List.cons_prefix_cons.mpr ⟨rfl, hp⟩)
    · intro p u x hp hx
      rw [List.append_assoc, List.singleton_append]
      exact hfree (t :: p) u x (List.cons_prefix_cons.mpr ⟨rfl, hp⟩) (Visited.trans hv1 hx)

end Way

end DocExpand.Engine
