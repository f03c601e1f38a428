/-
  DocExpand.Proofs.Engine.Spelling — an argument in its object, or beside it.

  An object can hold the argument of its directive, or say `true` and leave the argument to
  the member beside it under its own key with the suffix. Evaluated, the argument is the same
  at both places (`slot?_place`), the object becomes the same, and the member beside it is
  gone (`openMembers_spelling`). So the two documents have one strict value
  (`evaluate_spelling`), which is what a first pass leaves, and expand alike
  (`expand_spelling`).

  One directive reads its argument as it is written, an import. If the key of the object is
  itself an import's identifier, then the two spellings are two arguments of that import.
-/

import DocExpand.Proofs.Engine.Fixpoint
import DocExpand.Proofs.Engine.Pass
import DocExpand.Proofs.Engine.Relocation

namespace DocExpand

namespace Members

variable {α : Type} {key other : String} {a b : α} {ms : Members α}

theorem put_cons_of_lt (h : other < key) (slot : Option α) :
    put key slot ((other, a) :: ms) = (other, a) :: put key slot ms := by
  have hne : other ≠ key := fun he => String.lt_irrefl key (he ▸ h)
  cases slot with
  | none => exact if_neg hne
  | some v => exact if_pos h

theorem insert_erase (h : Ascending ms) (value : α) : insert key value (erase key ms) = insert key value ms :=
  put_put h none (some value)

/-- One value in place of another under a key. -/
theorem insert_map (h : Ascending ms) (key : String) (a b : α) :
    insert key b ms = (insert key a ms).map fun m => (m.1, if m.1 = key then b else m.2) := by
  have hkept : ∀ rest : Members α, key ∉ keys rest → rest.map (fun m => (m.1, if m.1 = key then b else m.2)) = rest := by
    intro rest hk
    refine (List.map_congr_left fun m hm => ?_).trans (List.map_id rest)
    have hne : m.1 ≠ key := fun he => hk (he ▸ mem_keys_of_mem hm)
    rw [if_neg hne]
    rfl
  induction ms with
  | nil => simp [insert]
  | cons m rest ih =>
    obtain ⟨k, v⟩ := m
    unfold insert
    split
    · rename_i hlt
      have hne : k ≠ key := fun he => String.lt_irrefl key (he ▸ hlt)
      rw [List.map_cons, ← ih h.tail, if_neg hne]
    · rename_i hlt
      split
      · rename_i heq
        rw [List.map_cons, if_pos rfl, hkept rest (heq ▸ h.not_mem)]
      · rename_i hne
        have hlt' : key < k := lt_of_not_lt hlt hne
        have hk : key ∉ keys ((k, v) :: rest) := by
          rw [keys_cons, List.mem_cons, not_or]
          exact ⟨Ne.symm hne, fun hm => String.lt_asymm hlt' (h.head_lt key hm)⟩
        rw [List.map_cons, if_pos rfl, hkept _ hk]

end Members

namespace Engine

open Json (nestingLimit)

variable {e : Engine} {strict : Bool} {at_ p q : Locator} {extra : Nat} {o h ms : Members Json} {k m key : String} {x : Json}
  {d : Directive}

/-! ## Which directive is invoked -/

theorem calls_map (e : Engine) (f : String → Json → Json) (ms : List (String × Json)) :
    e.calls (ms.map fun m => (m.1, f m.1 m.2)) = (e.calls ms).map fun m => (m.1, f m.1 m.2) := List.filter_map ..

/-- Only the argument of an invocation changes with the values of the members. -/
theorem invoked_map (host : Locator) (f : String → Json → Json) (ms : List (String × Json)) :
    e.invoked host (ms.map fun m => (m.1, f m.1 m.2)) =
      (e.invoked host ms).map (Option.map fun x => (x.1, x.2.1, f x.2.1 x.2.2)) := by
  rw [invoked_eq, invoked_eq, calls_map]
  rcases e.calls ms with _ | ⟨⟨first, argument⟩, _ | ⟨⟨second, other⟩, rest⟩⟩
  · rfl
  · cases hp : Directive.parse? first e.config.domain <;> simp [invokedBy, hp, Except.map]
  · cases hp : Directive.parse? first e.config.domain <;> cases hq : Directive.parse? second e.config.domain <;>
      simp [invokedBy, hp, hq, Except.map]

theorem invocation?_insert (hs : Members.Ascending ms) (key : String) (a b : Json) :
    e.invocation? (Members.insert key b ms) =
      (e.invocation? (Members.insert key a ms)).map (Option.map fun x => (x.1, x.2.1, if x.2.1 = key then b else x.2.2)) := by
  have hmap := invoked_map (e := e) Locator.root (fun k v => if k = key then b else v) (Members.insert key a ms)
  rw [← Members.insert_map hs key a b] at hmap
  rw [invocation?, invocation?, hmap]
  cases e.invoked Locator.root (Members.insert key a ms) <;> rfl

theorem calls_insert_unshaped (hk : Directive.isShaped key e.config.domain = false) (value : Json) (ms : Members Json) :
    e.calls (Members.insert key value ms) = e.calls ms := by
  have hskip : ∀ v rest, e.calls ((key, v) :: rest) = e.calls rest := fun v rest => by simp [calls_cons, hk]
  fun_induction Members.insert key value ms with
  | case1 => exact hskip value []
  | case2 l v rest _ ih => rw [calls_cons, calls_cons, ih]
  | case3 v rest _ => rw [hskip, hskip]
  | case4 l v rest _ _ => exact hskip value _

theorem invocation?_insert_unshaped (hk : Directive.isShaped key e.config.domain = false) (value : Json) (ms : Members Json) :
    e.invocation? (Members.insert key value ms) = e.invocation? ms := by
  rw [invocation?, invocation?, invoked_eq, invoked_eq, calls_insert_unshaped hk]

/-- Members with a directive's identifier among them invoke that directive, or a second key is shaped like one. -/
theorem invocation?_identifier (hs : Members.Ascending ms) (hd : Directive.parse? key e.config.domain = some d) :
    (∀ a, e.invocation? (Members.insert key a ms) = none) ∨
      ∀ a, e.invocation? (Members.insert key a ms) = some (some (d, key, a)) := by
  have hmem : (key, Json.null) ∈ Members.insert key Json.null ms := Members.mem_of_get? (Members.get?_insert_self ..)
  have hshaped := Directive.shaped_of_parse hd
  cases hi : e.invocation? (Members.insert key .null ms) with
  | none => exact .inl fun a => by rw [invocation?_insert hs key .null a, hi]; rfl
  | some found =>
    cases found with
    | none =>
      have := invocation?_none hi _ hmem
      rw [hshaped] at this
      cases this
    | some found =>
      obtain ⟨d', k', a'⟩ := found
      obtain ⟨-, hparse, hall⟩ := invocation?_some hi
      cases (hall _ hmem).mp hshaped
      rw [hd] at hparse
      cases hparse
      refine .inr fun a => ?_
      rw [invocation?_insert hs key .null a, hi]
      simp

/-! ## What one member is worth -/

/-- What becomes of a node that has no argument beside it. -/
def slot? (e : Engine) (strict : Bool) (done : Locator → Bool) (at_ : Locator) (node : Json) : Option Slot :=
  (e.open? strict done at_ node).bind (e.carry strict done at_ none node)

theorem slot?_place (hb : e.Bounded extra) (hany : e.Anywhere) (hp : p ≠ []) (hq : q ≠ [])
    (hproom : p.length + x.nesting + extra ≤ nestingLimit) (hqroom : q.length + x.nesting + extra ≤ nestingLimit) :
    e.slot? strict (fun _ => true) p x = e.slot? strict (fun _ => true) q x := by
  rw [slot?, slot?, open?_place hb hany x hproom hqroom]
  exact Option.bind_congr fun opened ho => carry_place hb hany hp hq hproom hqroom ho none

/-- In front of members that are all greater. -/
theorem openMembers_insert_front {done : Locator → Bool} {skip : Bool} (hs : Members.Ascending ((key, x) :: ms))
    (harm : (skip && isArm key) = false) (hnone : e.siblingKey key ∉ Members.keys ms) :
    openMembers e strict done at_ skip ((key, x) :: ms) = (openMembers e strict done at_ skip ms).bind fun r =>
      (e.slot? strict done (at_ ++ [.key key]) x).map fun slot => Members.put key slot r := by
  rw [openMembers_cons_put hs harm]
  refine Option.bind_congr fun after hr => ?_
  have hkeys := (openMembers_keys hs.tail hr).2
  have hbeside : e.beside key ms after = none := by
    rw [beside, if_neg]
    rwa [Members.contains_iff]
  have hleave : e.leave done (at_ ++ [.key key]) key x after = after := by
    unfold leave
    split
    · exact Members.erase_of_not_mem fun hm => hnone (hkeys _ hm)
    · rfl
  rw [hbeside, hleave, slot?, Option.map_bind]
  rfl

/-- Behind a lesser member, whose argument it is not. -/
theorem openMembers_insert_behind {done : Locator → Bool} {skip : Bool} {l : String} {node : Json}
    (hs : Members.Ascending ((l, node) :: ms)) (hlt : l < key) (hne : e.siblingKey l ≠ key)
    (hrest : openMembers e strict done at_ skip (Members.insert key x ms) =
      (openMembers e strict done at_ skip ms).bind fun r =>
        (e.slot? strict done (at_ ++ [.key key]) x).map fun slot => Members.put key slot r) :
    openMembers e strict done at_ skip ((l, node) :: Members.insert key x ms) =
      (openMembers e strict done at_ skip ((l, node) :: ms)).bind fun r =>
        (e.slot? strict done (at_ ++ [.key key]) x).map fun slot => Members.put key slot r := by
  have hasc : Members.Ascending ((l, node) :: Members.insert key x ms) := by
    have hinsert : Members.insert key x ((l, node) :: ms) = (l, node) :: Members.insert key x ms := if_pos hlt
    rw [← hinsert]
    exact hs.insert
  cases hl : skip && isArm l with
  | true =>
    rw [openMembers_cons_arm hl, openMembers_cons_arm hl, hrest, Option.map_bind, Option.bind_map]
    refine Option.bind_congr fun r _ => ?_
    simp only [Function.comp_apply, Option.map_map, Function.comp_def, Members.put_cons_of_lt hlt]
  | false =>
    rw [openMembers_cons_put hasc hl, openMembers_cons_put hs hl, hrest, Option.bind_assoc, Option.bind_assoc]
    refine Option.bind_congr fun r hr => ?_
    have hrasc := (openMembers_keys hs.tail hr).1
    have hkey : l ≠ key := fun he => String.lt_irrefl key (he ▸ hlt)
    have hbeside : ∀ slot, e.beside l (Members.insert key x ms) (Members.put key slot r) = e.beside l ms r := by
      intro slot
      unfold beside Members.contains
      rw [Members.get?_insert_of_ne (Ne.symm hne), Members.get?_put_of_ne (Ne.symm hne)]
    simp only [Option.bind_map, Function.comp_def, hbeside, leave_put hrasc _ fun _ _ => hne,
      Members.put_comm (leave_ascending hrasc l node) hkey]
    -- the two members are worth what they are, whichever comes first
    cases e.slot? strict done (at_ ++ [.key key]) x with
    | none => simp
    | some slot => simp [Option.map_eq_bind, Option.bind_assoc]

/-- A member without an argument beside it, which is nobody's argument itself, is evaluated by itself. -/
theorem openMembers_insert {done : Locator → Bool} {skip : Bool} (hs : Members.Ascending ms) (hkey : key ∉ Members.keys ms)
    (harm : (skip && isArm key) = false) (hnone : e.siblingKey key ∉ Members.keys ms)
    (hfree : ∀ l ∈ Members.keys ms, e.siblingKey l ≠ key) (x : Json) :
    openMembers e strict done at_ skip (Members.insert key x ms) =
      (openMembers e strict done at_ skip ms).bind fun r =>
        (e.slot? strict done (at_ ++ [.key key]) x).map fun slot => Members.put key slot r := by
  induction ms with
  | nil => exact openMembers_insert_front (List.pairwise_singleton ..) harm hnone
  | cons m rest ih =>
    obtain ⟨l, node⟩ := m
    rw [Members.keys_cons, List.mem_cons, not_or] at hkey
    rcases Classical.em (l < key) with hlt | hlt
    · have hrest := ih hs.tail hkey.2 (fun h => hnone (List.mem_cons_of_mem _ h))
        fun l' hl' => hfree l' (List.mem_cons_of_mem _ hl')
      have hinsert : Members.insert key x ((l, node) :: rest) = (l, node) :: Members.insert key x rest := if_pos hlt
      rw [hinsert]
      exact openMembers_insert_behind hs hlt (hfree l (List.mem_cons_self ..)) hrest
    · have hinsert : Members.insert key x ((l, node) :: rest) = (key, x) :: (l, node) :: rest := by
        unfold Members.insert
        rw [if_neg hlt, if_neg (Ne.symm hkey.1)]
      rw [hinsert]
      exact openMembers_insert_front (hinsert ▸ hs.insert) harm hnone

/-! ## The object with the argument -/

/-- Nothing but an import looks at the member that invokes it. -/
theorem outcome_inline (hd : Directive.parse? m e.config.domain = some d) (hload : d.verb ≠ .load) (strict : Bool)
    (written written' : Json) (argument slot slot' : Slot) (r : Members Json) :
    e.outcome strict d at_ m written argument (Members.put m slot r) =
      e.outcome strict d at_ m written' argument (Members.put m slot' r) := by
  have harm : ∀ condition, m ≠ armKey condition := by
    intro condition he
    have hnot := isArm_of_shaped (Directive.shaped_of_parse hd)
    rw [he] at hnot
    cases condition <;> exact absurd hnot (by decide +kernel)
  cases hv : d.verb with
  | load => exact absurd hv hload
  | choose => simp only [outcome, hv, Members.get?_put_of_ne (harm _)]
  | lookup | join | asJson | asYaml | asBase64 => simp only [outcome, hv]

section Host

variable (hsuffix : e.config.argsSuffix = "_args") (hs : Members.Ascending h)
  (hd : Directive.parse? m e.config.domain = some d) (hload : d.verb ≠ .load) (hm : e.siblingKey m ∉ Members.keys h)

include hsuffix hs hd hm

theorem openMembers_argument (strict : Bool) (at_ : Locator) (skip : Bool) (x : Json) :
    openMembers e strict (fun _ => true) at_ skip (Members.insert m x h) =
      (openMembers e strict (fun _ => true) at_ skip (Members.erase m h)).bind fun r =>
        (e.slot? strict (fun _ => true) (at_ ++ [.key m]) x).map fun slot => Members.put m slot r := by
  have hshaped := Directive.shaped_of_parse hd
  have herase : ∀ {l}, l ∈ Members.keys (Members.erase m h) → l ∈ Members.keys h :=
    fun hl => (Members.erase_sublist.map Prod.fst).mem hl
  rw [← Members.insert_erase hs]
  refine openMembers_insert hs.erase ?_ ?_ (fun hl => hm (herase hl)) (fun l _ he => ?_) x
  · rw [← Members.get?_eq_none_iff, Members.get?_erase_self hs]
  · rw [isArm_of_shaped hshaped, Bool.and_false]
  · have := siblingKey_unshaped hsuffix l
    rw [he, hshaped] at this
    cases this

include hload

/-- An object becomes the same with the argument in it as with the same argument beside it. -/
theorem slot?_argument (strict : Bool) (at_ : Locator) (x : Json) :
    e.slot? strict (fun _ => true) at_ (.obj (Members.insert m x h)) =
      (e.slot? strict (fun _ => true) (at_ ++ [.key m]) x).bind fun slot =>
        (e.open? strict (fun _ => true) at_ (.obj (Members.insert m (.bool true) h))).bind
          (e.carry strict (fun _ => true) at_ (some slot) (.obj (Members.insert m (.bool true) h))) := by
  rcases invocation?_identifier hs hd with hi | hi
  · -- a second shaped key, in both objects
    have hopen : ∀ a, e.open? strict (fun _ => true) at_ (.obj (Members.insert m a h)) = none := by
      intro a
      rw [open?, hi a]
    rw [slot?, hopen, hopen, Option.bind_none]
    simp
  · have hskips : ∀ a, e.skips (Members.insert m a h) = (d.verb == .choose) := by
      intro a
      rw [skips, hi a]
      rfl
    have hopen : ∀ a, e.open? strict (fun _ => true) at_ (.obj (Members.insert m a h)) =
        (openMembers e strict (fun _ => true) at_ (d.verb == .choose) (Members.erase m h)).bind fun r =>
          (e.slot? strict (fun _ => true) (at_ ++ [.key m]) a).map fun slot => .obj (Members.put m slot r) := by
      intro a
      rw [open?, hi a]
      simp only
      rw [hskips, openMembers_argument hsuffix hs hd hm, Option.map_bind]
      simp only [Function.comp_def, Option.map_map]
    have htrue : e.slot? strict (fun _ => true) (at_ ++ [.key m]) (.bool true) = some (some (.bool true)) := rfl
    have hhost : ∀ a, e.host? (.obj (Members.insert m a h)) = some (d, m, a) := fun a => host?_obj.mpr (hi a)
    rw [slot?, hopen, hopen, htrue]
    cases hr : openMembers e strict (fun _ => true) at_ (d.verb == .choose) (Members.erase m h) with
    | none => simp
    | some r =>
      have hasc := (openMembers_keys hs.erase hr).1
      simp only [Option.bind_some, Option.bind_map, Option.map_some]
      refine Option.bind_congr fun slot _ => ?_
      have hargument : argumentOf m x none (Members.put m slot r) = slot := by
        rw [argumentOf, ite_self, Option.getD_none, Members.get?_put_self hasc]
      have hbeside : argumentOf m (.bool true) (some slot) (Members.put m (some (.bool true)) r) = slot := by
        rw [argumentOf, if_pos rfl, Option.getD_some]
      rw [Function.comp_apply, carry, carry, hhost, hhost]
      simp only [if_true, membersOf, hargument, hbeside]
      rw [outcome_inline hd hload strict x (.bool true) slot slot (some (.bool true)) r]

end Host

/-! ## The two documents -/

/-- The object under `k` has the argument of `m` in it. -/
def inline (o : Members Json) (k : String) (h : Members Json) (m : String) (x : Json) : Members Json :=
  Members.insert k (.obj (Members.insert m x h)) o

/-- The object under `k` says `true` for the argument, which stands beside it. -/
def aside (e : Engine) (o : Members Json) (k : String) (h : Members Json) (m : String) (x : Json) : Members Json :=
  Members.insert k (.obj (Members.insert m (.bool true) h)) (Members.insert (e.siblingKey k) x o)

/-- The members of the two spellings: `m` names a directive but no import, and none of the keys in question is taken. -/
structure Spelled (e : Engine) (o : Members Json) (k : String) (h : Members Json) (m : String) (x : Json) (d : Directive) :
    Prop where
  suffix : e.config.argsSuffix = "_args"
  outer : (Json.obj o).Ordered
  inner : (Json.obj h).Ordered
  argument : x.Ordered
  unshaped : ∀ l ∈ Members.keys o, Directive.isShaped l e.config.domain = false
  parsed : Directive.parse? m e.config.domain = some d
  other : d.verb ≠ .load
  key : k ∉ Members.keys o
  sibling : e.siblingKey k ∉ Members.keys o
  again : e.siblingKey (e.siblingKey k) ∉ Members.keys o
  own : e.siblingKey m ∉ Members.keys h

namespace Spelled

variable (hsp : e.Spelled o k h m x d)

include hsp

theorem inline_ordered : (Json.obj (inline o k h m x)).Ordered := hsp.outer.insert (hsp.inner.insert hsp.argument m) k

theorem aside_ordered : (Json.obj (e.aside o k h m x)).Ordered :=
  (hsp.outer.insert hsp.argument _).insert (hsp.inner.insert (show (Json.bool true).Ordered from trivial) m) k

theorem suffix_ne : e.config.argsSuffix ≠ "" := by
  rw [hsp.suffix]
  decide +kernel

/-- An object that can be evaluated and says `true` takes the argument beside it. -/
theorem takes {opened : Json}
    (ho : e.open? strict (fun _ => true) at_ (.obj (Members.insert m (.bool true) h)) = some opened) :
    e.takes (.obj (Members.insert m (.bool true) h)) = true := by
  rcases invocation?_identifier (Json.ordered_obj.mp hsp.inner).1 hsp.parsed with hi | hi
  · rw [open?, hi] at ho
    cases ho
  · rw [Engine.takes, host?_obj.mpr (hi _)]
    rfl

/-- The two spellings side by side, in front of members that are all greater. -/
theorem openMembers_front {rest : Members Json} (hr : Members.Ascending rest) (hlt : ∀ l ∈ Members.keys rest, k < l)
    (hsub : ∀ l ∈ Members.keys rest, l ∈ Members.keys o) {skip : Bool} (hskip : (skip && isArm k) = false)
    (hplace : e.slot? strict (fun _ => true) ([.key k] ++ [.key m]) x = e.slot? strict (fun _ => true) [.key (e.siblingKey k)] x) :
    openMembers e strict (fun _ => true) [] skip (inline rest k h m x) =
      openMembers e strict (fun _ => true) [] skip (e.aside rest k h m x) := by
  have hk : e.siblingKey k ∉ Members.keys rest := fun hm => hsp.sibling (hsub _ hm)
  have hsib : (skip && isArm (e.siblingKey k)) = false := by rw [siblingKey_not_arm hsp.suffix, Bool.and_false]
  have hlt' : ∀ l ∈ Members.keys (Members.insert (e.siblingKey k) x rest), k < l := by
    intro l hl
    rcases Members.mem_keys_insert.mp hl with rfl | hl
    · exact lt_append_suffix k hsp.suffix_ne
    · exact hlt l hl
  have hfree : ∀ l ∈ Members.keys rest, e.siblingKey l ≠ e.siblingKey k := by
    intro l hl he
    exact hsp.key (siblingKey_inj he ▸ hsub l hl)
  have hinsert : ∀ (value : Json) (ms : Members Json), (∀ l ∈ Members.keys ms, k < l) →
      Members.insert k value ms = (k, value) :: ms := fun value _ hms => Members.put_of_forall_lt hms (some value)
  rw [inline, aside, hinsert _ _ hlt, hinsert _ _ hlt', openMembers_cons_put (Members.ascending_cons.mpr ⟨hlt, hr⟩) hskip,
    openMembers_cons_put (Members.ascending_cons.mpr ⟨hlt', hr.insert⟩) hskip,
    openMembers_insert hr hk hsib (fun hm => hsp.again (hsub _ hm)) hfree x, Option.bind_assoc]
  refine Option.bind_congr fun r hopen => ?_
  obtain ⟨hasc, hkeys⟩ := openMembers_keys hr hopen
  have hbeside : e.beside k rest r = none := by
    rw [beside, if_neg]
    rwa [Members.contains_iff]
  have habsent : Members.erase (e.siblingKey k) r = r := Members.erase_of_not_mem fun hm => hk (hkeys _ hm)
  have hleave : e.leave (fun _ => true) ([] ++ [.key k]) k (.obj (Members.insert m x h)) r = r := by
    rw [leave]
    split
    · exact habsent
    · rfl
  have hinline := slot?_argument hsp.suffix (Json.ordered_obj.mp hsp.inner).1 hsp.parsed hsp.other hsp.own strict
    ([] ++ [.key k]) x
  have hslot : ∀ f : Slot → Members Json,
      ((e.open? strict (fun _ => true) ([] ++ [.key k]) (.obj (Members.insert m x h))).bind fun opened =>
        (e.carry strict (fun _ => true) ([] ++ [.key k]) none (.obj (Members.insert m x h)) opened).map f) =
      (e.slot? strict (fun _ => true) ([] ++ [.key k]) (.obj (Members.insert m x h))).map f := by
    intro f
    rw [slot?, Option.map_bind]
    rfl
  rw [hbeside, hleave, hslot, hinline, List.nil_append, List.nil_append, hplace, Option.map_bind, Option.bind_map]
  refine Option.bind_congr fun slot _ => ?_
  rw [Function.comp_apply, Function.comp_apply, Option.map_bind]
  refine Option.bind_congr fun opened ho => ?_
  have hget : e.beside k (Members.insert (e.siblingKey k) x rest) (Members.put (e.siblingKey k) slot r) = some slot := by
    rw [beside, Members.contains, Members.get?_insert_self, Members.get?_put_self hasc]
    rfl
  have hgone : e.leave (fun _ => true) [.key k] k (.obj (Members.insert m (.bool true) h))
      (Members.put (e.siblingKey k) slot r) = r := by
    rw [leave, hsp.takes ho, Bool.and_self, if_pos rfl]
    exact (Members.put_put hasc slot none).trans habsent
  rw [Function.comp_apply, hget, hgone]

/-- Wherever the object of one spelling stands in the members, the other spelling gives the same. -/
theorem openMembers_spelling {skip : Bool} (hskip : (skip && isArm k) = false)
    (hplace : e.slot? strict (fun _ => true) ([.key k] ++ [.key m]) x = e.slot? strict (fun _ => true) [.key (e.siblingKey k)] x) :
    openMembers e strict (fun _ => true) [] skip (inline o k h m x) =
      openMembers e strict (fun _ => true) [] skip (e.aside o k h m x) := by
  have hall : ∀ rest : Members Json, Members.Ascending rest → (∀ l ∈ Members.keys rest, l ∈ Members.keys o) →
      openMembers e strict (fun _ => true) [] skip (inline rest k h m x) =
        openMembers e strict (fun _ => true) [] skip (e.aside rest k h m x) := by
    intro rest hr hsub
    induction rest with
    | nil => exact hsp.openMembers_front hr (fun _ hl => nomatch hl) hsub hskip hplace
    | cons n rest ih =>
      obtain ⟨l, node⟩ := n
      have hne : l ≠ k := fun he => hsp.key (he ▸ hsub l (List.mem_cons_self ..))
      have hi := ih hr.tail fun l' hl' => hsub l' (List.mem_cons_of_mem _ hl')
      rcases Classical.em (l < k) with hlt | hlt
      · have hltk : l < e.siblingKey k := String.lt_trans hlt (lt_append_suffix k hsp.suffix_ne)
        have hin : inline ((l, node) :: rest) k h m x = (l, node) :: inline rest k h m x := if_pos hlt
        have has : e.aside ((l, node) :: rest) k h m x = (l, node) :: e.aside rest k h m x := by
          have : Members.insert (e.siblingKey k) x ((l, node) :: rest) = (l, node) :: Members.insert (e.siblingKey k) x rest :=
            if_pos hltk
          rw [aside, this]
          exact if_pos hlt
        rw [hin, has]
        cases hl : skip && isArm l with
        | true => rw [openMembers_cons_arm hl, openMembers_cons_arm hl, hi]
        | false =>
          have hnot : e.siblingKey l ≠ e.siblingKey k := fun he => hne (siblingKey_inj he)
          have hbeside : ∀ after, e.beside l (inline rest k h m x) after = e.beside l (e.aside rest k h m x) after := by
            intro after
            have hsame : Members.contains (e.siblingKey l) (inline rest k h m x) =
                Members.contains (e.siblingKey l) (e.aside rest k h m x) := by
              rw [Bool.eq_iff_iff, Members.contains_iff, Members.contains_iff, inline, aside, Members.mem_keys_insert,
                Members.mem_keys_insert, Members.mem_keys_insert]
              simp only [hnot, false_or]
            rw [beside, beside, hsame]
          rw [openMembers_cons hl, openMembers_cons hl, hi]
          simp only [hbeside]
      · have hlt' : k < l := Members.lt_of_not_lt hlt hne
        refine hsp.openMembers_front hr (fun l' hl' => ?_) hsub hskip hplace
        rcases List.mem_cons.mp hl' with rfl | hl'
        · exact hlt'
        · exact String.lt_trans hlt' (hr.head_lt l' hl')
  exact hall o (Json.ordered_obj.mp hsp.outer).1 fun _ hl => hl

omit hsp in
theorem invocation?_inline (hsp : e.Spelled o k h m x d) :
    (e.invocation? (inline o k h m x) = none ∧ e.invocation? (e.aside o k h m x) = none) ∨
    (e.invocation? (inline o k h m x) = some none ∧ e.invocation? (e.aside o k h m x) = some none) ∨
    ∃ v, Directive.parse? k e.config.domain = some v ∧
      e.invocation? (inline o k h m x) = some (some (v, k, .obj (Members.insert m x h))) ∧
      e.invocation? (e.aside o k h m x) = some (some (v, k, .obj (Members.insert m (.bool true) h))) := by
  have hasc := (Json.ordered_obj.mp hsp.outer).1
  have hne : e.siblingKey k ≠ k := siblingKey_ne hsp.suffix_ne k
  have haside : e.invocation? (e.aside o k h m x) =
      e.invocation? (Members.insert k (.obj (Members.insert m (.bool true) h)) o) := by
    have hcomm : e.aside o k h m x =
        Members.insert (e.siblingKey k) x (Members.insert k (.obj (Members.insert m (.bool true) h)) o) :=
      Members.put_comm hasc hne.symm (some _) (some _)
    rw [hcomm, invocation?_insert_unshaped (siblingKey_unshaped hsp.suffix k)]
  rw [haside, inline]
  cases hv : Directive.parse? k e.config.domain with
  | some v =>
    rcases invocation?_identifier hasc hv with hi | hi
    · exact .inl ⟨hi _, hi _⟩
    · exact .inr (.inr ⟨v, rfl, hi _, hi _⟩)
  | none =>
    rw [invocation?_insert hasc k (.obj (Members.insert m x h)) (.obj (Members.insert m (.bool true) h))]
    cases hi : e.invocation? (Members.insert k (.obj (Members.insert m x h)) o) with
    | none => exact .inl ⟨rfl, rfl⟩
    | some found =>
      cases found with
      | none => exact .inr (.inl ⟨rfl, rfl⟩)
      | some found =>
        -- the shaped key can only be `k`, which names no directive
        obtain ⟨v, l, w⟩ := found
        obtain ⟨hl, hparse, -⟩ := invocation?_some hi
        rcases Members.mem_keys_insert.mp (Members.mem_keys_of_mem hl) with rfl | hl
        · rw [hv] at hparse
          cases hparse
        · have := hsp.unshaped l hl
          rw [Directive.shaped_of_parse hparse] at this
          cases this

omit hsp in
/-- With the same parts evaluated, an object that is itself the argument of the root's directive becomes the same. -/
theorem carry_spelling {v : Directive} {opened : Json}
    (h1 : e.invocation? (inline o k h m x) = some (some (v, k, .obj (Members.insert m x h))))
    (h2 : e.invocation? (e.aside o k h m x) = some (some (v, k, .obj (Members.insert m (.bool true) h))))
    (himport : v.verb = .load →
      e.imports Locator.root (.obj (Members.insert m x h)) = e.imports Locator.root (.obj (Members.insert m (.bool true) h))) :
    e.carry strict (fun _ => true) Locator.root none (.obj (inline o k h m x)) opened =
      e.carry strict (fun _ => true) Locator.root none (.obj (e.aside o k h m x)) opened := by
  have houtcome : ∀ (argument : Slot) (ms : Members Json),
      e.outcome strict v Locator.root k (.obj (Members.insert m x h)) argument ms =
        e.outcome strict v Locator.root k (.obj (Members.insert m (.bool true) h)) argument ms := by
    intro argument ms
    cases hverb : v.verb with
    | load => simp only [outcome, hverb, himport hverb]
    | choose | lookup | join | asJson | asYaml | asBase64 => simp only [outcome, hverb]
  have hargument : ∀ a ms : Members Json, argumentOf k (.obj a) none ms = Members.get? k ms := by
    intro a ms
    rw [argumentOf, ite_self, Option.getD_none]
  rw [carry, carry, host?_obj.mpr h1, host?_obj.mpr h2]
  simp only [hargument, houtcome]

omit hsp in
/-- The argument is worth the same in the object and beside it, at the places that it has there. -/
theorem slot?_spelling (hany : e.Anywhere) (hb : e.Bounded extra)
    (hdeep : (Json.obj (inline o k h m x)).nesting + extra ≤ nestingLimit) (strict : Bool) :
    e.slot? strict (fun _ => true) ([.key k] ++ [.key m]) x = e.slot? strict (fun _ => true) [.key (e.siblingKey k)] x := by
  have hx : 2 + x.nesting + extra ≤ nestingLimit := by
    have hresolve : Locator.resolve [.key k, .key m] (.obj (inline o k h m x)) = some x := by
      change (Members.get? k (inline o k h m x)).bind _ = _
      rw [inline, Members.get?_insert_self]
      exact congrArg (Option.bind · some) (Members.get?_insert_self ..)
    have := Locator.resolve_nesting hresolve
    simp only [List.length_cons, List.length_nil] at this
    omega
  refine slot?_place hb hany (by simp) (by simp) ?_ ?_
  · simp only [List.length_append, List.length_singleton]
    omega
  · simp only [List.length_singleton]
    omega

/-- Both spellings have the same strict value. -/
theorem evaluate_spelling (hany : e.Anywhere) (hb : e.Bounded extra)
    (hdeep : (Json.obj (inline o k h m x)).nesting + extra ≤ nestingLimit)
    (himport : ∀ v, Directive.parse? k e.config.domain = some v → v.verb = .load →
      e.imports Locator.root (.obj (Members.insert m x h)) = e.imports Locator.root (.obj (Members.insert m (.bool true) h)))
    (strict : Bool) :
    e.evaluate strict (fun _ => true) (.obj (inline o k h m x)) = e.evaluate strict (fun _ => true) (.obj (e.aside o k h m x)) := by
  have hplace := slot?_spelling hany hb hdeep strict
  rcases hsp.invocation?_inline with ⟨h1, h2⟩ | ⟨h1, h2⟩ | ⟨v, hv, h1, h2⟩
  · have hopen1 : e.open? strict (fun _ => true) Locator.root (.obj (inline o k h m x)) = none := by rw [open?, h1]
    have hopen2 : e.open? strict (fun _ => true) Locator.root (.obj (e.aside o k h m x)) = none := by rw [open?, h2]
    rw [evaluate, evaluate, hopen1, hopen2]
    rfl
  · -- nothing is invoked at the root
    have hopen : e.open? strict (fun _ => true) Locator.root (.obj (inline o k h m x)) =
        e.open? strict (fun _ => true) Locator.root (.obj (e.aside o k h m x)) := by
      rw [open?, open?, h1, h2]
      simp only
      rw [skips_of_none h1, skips_of_none h2]
      exact congrArg _ (hsp.openMembers_spelling rfl hplace)
    have hplain : ∀ ms, e.invocation? ms = some none → e.host? (.obj ms) = none := by
      intro ms hi
      rw [host?, hi]
      rfl
    rw [evaluate, evaluate, hopen]
    simp only [carry_plain (hplain _ h1), carry_plain (hplain _ h2)]
  · -- the object is itself the argument of the root's directive
    have hskips : ∀ {ms w}, e.invocation? ms = some (some (v, k, w)) → e.skips ms = (v.verb == .choose) := by
      intro ms w hi
      rw [skips, hi]
      rfl
    have hopen : e.open? strict (fun _ => true) Locator.root (.obj (inline o k h m x)) =
        e.open? strict (fun _ => true) Locator.root (.obj (e.aside o k h m x)) := by
      have hskip : ((v.verb == .choose) && isArm k) = false := by
        rw [isArm_of_shaped (Directive.shaped_of_parse hv), Bool.and_false]
      rw [open?, open?, h1, h2]
      simp only
      rw [hskips h1, hskips h2]
      exact congrArg _ (hsp.openMembers_spelling hskip hplace)
    rw [evaluate, evaluate, hopen]
    exact Option.bind_congr fun opened _ => by rw [carry_spelling h1 h2 (himport v hv)]

end Spelled

/-! ## Expansion -/

/-- A pass over a document that has a shaped key works, or fails, by the document's strict value. -/
theorem runPass_works {doc d1 : Json} (hsuffix : e.config.argsSuffix = "_args") (hd : doc.Sound) (ho : doc.Ordered)
    (hshaped : e.shaped doc = true) :
    (∃ count, e.runPass.runOn doc = (.ok (count + 1), d1)) ↔ e.evaluate true (fun _ => true) doc = some d1 := by
  have hne : e.config.argsSuffix ≠ "" := by
    rw [hsuffix]
    decide +kernel
  have hrun : ∀ {found order}, e.scan doc = .ok found → Invocation.schedule found = some order →
      ((e.execute order).runOn doc = (.ok (), d1) ↔ e.evaluate true (fun _ => true) doc = some d1) := by
    intro found order hscan hs
    have hpass : e.Pass doc found := ⟨ho, hne, hscan, apart_of_default hsuffix hscan⟩
    exact (hpass.course hs).execute_order hd
  constructor
  · intro h
    obtain ⟨count, h⟩ := h
    obtain ⟨found, order, hscan, hs, hx, -⟩ := runPass_ok.mp h
    exact (hrun hscan hs).mp hx
  · intro h
    obtain ⟨found, hscan⟩ := scan_of_evaluate h
    obtain ⟨order, hs⟩ := exists_schedule ho hscan
    have hfound : found ≠ [] := by
      intro hnil
      rw [hnil, scan_nil, hshaped] at hscan
      cases hscan
    obtain ⟨i, rest, rfl⟩ := List.exists_cons_of_ne_nil hfound
    exact ⟨rest.length, runPass_ok.mpr ⟨_, _, hscan, hs, (hrun hscan hs).mpr h, rfl⟩⟩

/-- Documents with the same strict value expand alike, if both have something to expand. -/
theorem expand_of_evaluate {a b : Json} (hsuffix : e.config.argsSuffix = "_args") (ha : a.Sound) (hb : b.Sound)
    (hao : a.Ordered) (hbo : b.Ordered) (has : e.shaped a = true) (hbs : e.shaped b = true)
    (heq : e.evaluate true (fun _ => true) a = e.evaluate true (fun _ => true) b) (count : Nat) (result : Json) :
    e.expand.runOn a = (.ok count, result) ↔ e.expand.runOn b = (.ok count, result) := by
  have hworks : ∀ {doc : Json}, doc.Sound → doc.Ordered → e.shaped doc = true →
      (e.expand.runOn doc = (.ok count, result) ↔ ∃ n d1, count = n + 1 ∧ count ≤ e.config.maxPasses ∧
        e.evaluate true (fun _ => true) doc = some d1 ∧ e.Worked n d1 result ∧ e.scan result = .ok []) := by
    intro doc hd ho hs
    rw [expand_ok]
    constructor
    · intro h
      obtain ⟨hmax, hw, hscan⟩ := h
      cases hw with
      | start =>
        rw [scan_nil, hs] at hscan
        cases hscan
      | pass hrun hrest => exact ⟨_, _, rfl, hmax, (runPass_works hsuffix hd ho hs).mp ⟨_, hrun⟩, hrest, hscan⟩
    · intro h
      obtain ⟨n, d1, rfl, hmax, hv, hrest, hscan⟩ := h
      obtain ⟨_, hrun⟩ := (runPass_works hsuffix hd ho hs).mpr hv
      exact ⟨hmax, .pass hrun hrest, hscan⟩
  rw [hworks ha hao has, hworks hb hbo hbs, heq]

namespace Spelled

theorem inline_shaped (hsp : e.Spelled o k h m x d) : e.shaped (.obj (inline o k h m x)) = true := by
  have hhost : e.HasShaped (Members.insert m x h) :=
    ⟨(m, x), Members.mem_of_get? (Members.get?_insert_self ..), Directive.shaped_of_parse hsp.parsed⟩
  refine shapedMembers_iff.mpr (.inr ⟨(k, .obj (Members.insert m x h)), ?_, shapedMembers_iff.mpr (.inl hhost)⟩)
  exact Members.mem_of_get? (Members.get?_insert_self ..)

theorem aside_shaped (hsp : e.Spelled o k h m x d) : e.shaped (.obj (e.aside o k h m x)) = true := by
  have hhost : e.HasShaped (Members.insert m (.bool true) h) :=
    ⟨(m, .bool true), Members.mem_of_get? (Members.get?_insert_self ..), Directive.shaped_of_parse hsp.parsed⟩
  refine shapedMembers_iff.mpr (.inr ⟨(k, .obj (Members.insert m (.bool true) h)), ?_, shapedMembers_iff.mpr (.inl hhost)⟩)
  exact Members.mem_of_get? (Members.get?_insert_self ..)

end Spelled

/-- With imports that do not depend on the asking object, and nesting limits that no look-up or import can exceed, a
    document with an argument inside its object expands like the one with the argument beside it. Where the object is
    itself the argument of an import at the root, the import has to take the two spellings for the same. -/
theorem expand_spelling (hsp : e.Spelled o k h m x d) (hinline : Opened (.obj (inline o k h m x)))
    (haside : Opened (.obj (e.aside o k h m x))) (hany : e.Anywhere) (hb : e.Bounded extra)
    (hdeep : (Json.obj (inline o k h m x)).nesting + extra ≤ 127)
    (himport : ∀ v, Directive.parse? k e.config.domain = some v → v.verb = .load →
      e.imports Locator.root (.obj (Members.insert m x h)) = e.imports Locator.root (.obj (Members.insert m (.bool true) h)))
    (count : Nat) (result : Json) :
    e.expand.runOn (.obj (inline o k h m x)) = (.ok count, result) ↔
      e.expand.runOn (.obj (e.aside o k h m x)) = (.ok count, result) :=
  expand_of_evaluate hsp.suffix (opened_sound hinline) (opened_sound haside) hsp.inline_ordered hsp.aside_ordered
    hsp.inline_shaped hsp.aside_shaped (hsp.evaluate_spelling hany hb hdeep himport true) count result

/-- A string directive, whose argument is an invocation. -/
theorem expand_spelling_joined :
    let o : Members Json := [("b", .str "y")]
    let x : Json := .obj [("kubegen.String.Join", .arr [.str "u"])]
    plain.Spelled o "a" [] "kubegen.String.AsJSON" x ⟨.string, .d, .asJson⟩ ∧ plain.Anywhere ∧ plain.Bounded 0 ∧
      plain.expand.runOn (.obj (plain.aside o "a" [] "kubegen.String.AsJSON" x)) =
        (.ok 1, .obj [("a", .str "\"u\""), ("b", .str "y")]) := by
  intro o x
  have hsp : plain.Spelled o "a" [] "kubegen.String.AsJSON" x ⟨.string, .d, .asJson⟩ := by
    constructor <;> decide +kernel
  have hany : plain.Anywhere := fun _ _ _ => rfl
  have hb : plain.Bounded 0 := ⟨fun _ _ h => (nomatch h), fun _ _ _ _ h => (nomatch h)⟩
  have hinline : Opened (.obj (inline o "a" [] "kubegen.String.AsJSON" x)) := .inl ⟨_, accept_ok.mpr ⟨rfl, by decide +kernel⟩⟩
  have haside : Opened (.obj (plain.aside o "a" [] "kubegen.String.AsJSON" x)) :=
    .inl ⟨_, accept_ok.mpr ⟨rfl, by decide +kernel⟩⟩
  have hrun : plain.expand.runOn (.obj (inline o "a" [] "kubegen.String.AsJSON" x)) =
      (.ok 1, .obj [("a", .str "\"u\""), ("b", .str "y")]) := by decide +kernel
  exact ⟨hsp, hany, hb,
    (expand_spelling hsp hinline haside hany hb (by decide +kernel) (fun _ _ _ => rfl) 1 _).mp hrun⟩

/-- Imports that are the same everywhere, but only for one of the two spellings of their argument. -/
def telling : Engine :=
  ⟨{}, fun _ argument => if argument = .obj [("kubegen.String.AsJSON", .bool true)] then some "{}".toUTF8 else none⟩

/-- What an import at the root makes of the two spellings is up to the import. -/
theorem telling_apart :
    let spelled := inline [] "kubegen.Object.LoadJSON" [] "kubegen.String.AsJSON" .null
    let spelled' := telling.aside [] "kubegen.Object.LoadJSON" [] "kubegen.String.AsJSON" .null
    telling.Spelled [] "kubegen.Object.LoadJSON" [] "kubegen.String.AsJSON" .null ⟨.string, .d, .asJson⟩ ∧
      Opened (.obj spelled) ∧ Opened (.obj spelled') ∧ telling.Anywhere ∧ telling.Bounded 1 ∧
      (Json.obj spelled).nesting + 1 ≤ 127 ∧
      (telling.expand.runOn (.obj spelled)).1 =
        .error (.invocation "kubegen.Object.LoadJSON" [.key "kubegen.Object.LoadJSON"] (.importNotFound [])) ∧
      telling.expand.runOn (.obj spelled') = (.ok 1, .obj []) := by
  intro spelled spelled'
  have hsp : telling.Spelled [] "kubegen.Object.LoadJSON" [] "kubegen.String.AsJSON" .null ⟨.string, .d, .asJson⟩ := by
    constructor <;> decide +kernel
  have hb : telling.Bounded 1 := by
    refine ⟨fun _ _ h => (nomatch h), fun host argument bytes found h hdecode => ?_⟩
    change (if _ then _ else none) = some bytes at h
    split at h
    · cases h
      have hempty : Json.decode "{}".toUTF8 = some (.obj []) := by decide +kernel
      rw [hempty] at hdecode
      cases hdecode
      decide +kernel
    · cases h
  exact ⟨hsp, .inl ⟨_, accept_ok.mpr ⟨rfl, by decide +kernel⟩⟩, .inl ⟨_, accept_ok.mpr ⟨rfl, by decide +kernel⟩⟩,
    fun _ _ _ => rfl, hb, by decide +kernel, by decide +kernel, by decide +kernel⟩

end Engine

end DocExpand
