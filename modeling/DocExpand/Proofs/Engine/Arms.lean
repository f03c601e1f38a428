/-
  DocExpand.Proofs.Engine.Arms — arms that no choice takes.

  A choice whose condition stands in its object takes one arm, and the other is known from
  the document as it is written. `trim` leaves those arms out. A document and the document
  without one such arm are scanned alike (`scan_drops`), and the first pass makes one
  document of them or fails on both for one cause (`runPass_drops`). Arm after arm, documents
  that are trimmed to the same expand alike (`expand_trim`).

  While a choice waits for its turn the arm that it will not take is part of the document.
  If the document becomes too deep meanwhile, then the report on it depends on that arm
  (`expand_deeper_apart`).
-/

import DocExpand.Proofs.Engine.Lockstep
import DocExpand.Proofs.Engine.Spelling
import Mathlib.Logic.Relation

namespace DocExpand

namespace Members

variable {α : Type} {key : String} {a b : α} {pre post : Members α}

/-- A later value of one member. -/
theorem insert_middle (h : Ascending (pre ++ (key, a) :: post)) (b : α) :
    insert key b (pre ++ (key, a) :: post) = pre ++ (key, b) :: post := by
  induction pre with
  | nil =>
    unfold insert
    rw [List.nil_append, List.nil_append]
    simp
  | cons m pre ih =>
    obtain ⟨k, v⟩ := m
    rw [List.cons_append] at h
    have hlt : k < key := h.head_lt key (mem_keys_of_mem (List.mem_append_right _ (List.mem_cons_self ..)))
    rw [List.cons_append, List.cons_append, ← ih h.tail]
    exact if_pos hlt

end Members

namespace Engine

variable {e : Engine} {doc d t node node' x y : Json} {at_ rel host : Locator} {members ms : Members Json} {items : List Json}
  {key arm : String} {beside condition : Bool} {n m : Nat}

/-! ## Trimmed documents -/

/-- The key names the directive of a choice. -/
def choosing (e : Engine) (key : String) : Bool := (Directive.parse? key e.config.domain).any (·.verb == .choose)

/-- The object holds a choice. -/
def isChoice (e : Engine) (members : Members Json) : Bool := members.any (e.choosing ·.1)

/-- The arm that the choice of an object does not take, if that can be told from the object as it is written. With a member
    `beside` the object that may give the argument, a condition of `true` stands for that. -/
def discarded (e : Engine) (beside : Bool) (members : Members Json) : Option String :=
  match members.find? (e.choosing ·.1) with
  | some (_, .bool condition) => if condition && beside then none else some (armKey !condition)
  | _ => none

/-- The members without the arm that is not taken. -/
def prune (e : Engine) (beside : Bool) (members : Members Json) : Members Json :=
  (e.discarded beside members).elim members fun arm => Members.erase arm members

mutual

/-- The node without the arms that are not taken, as far as no arm is around them. -/
def trim (e : Engine) (beside : Bool) : Json → Json
  | .obj members => .obj (e.prune beside (trimMembers e members members))
  | .arr items => .arr (trimItems e items)
  | node => node

def trimItems (e : Engine) : List Json → List Json
  | [] => []
  | item :: rest => trim e false item :: trimItems e rest

/-- Some of the members of an object, which has `all` of them. -/
def trimMembers (e : Engine) (all : Members Json) : List (String × Json) → List (String × Json)
  | [] => []
  | (key, value) :: rest =>
    (key, if e.isChoice all && isArm key then value else trim e (Members.contains (e.siblingKey key) all) value) ::
      trimMembers e all rest

end

/-- One document and the same without one arm that is not taken, which stands at a place. -/
inductive Drops (e : Engine) : Bool → Locator → Json → Json → Prop
  | here {beside : Bool} {members : Members Json} {arm : String} : e.discarded beside members = some arm →
      Members.contains arm members = true →
      Drops e beside [.key arm] (.obj members) (.obj (Members.erase arm members))
  | item {beside : Bool} {items : List Json} {n : Nat} {x y : Json} {rel : Locator} : items[n]? = some x →
      Drops e false rel x y → Drops e beside (.index n :: rel) (.arr items) (.arr (items.set n y))
  | member {beside : Bool} {members : Members Json} {key : String} {x y : Json} {rel : Locator} :
      Members.get? key members = some x → (e.isChoice members && isArm key) = false →
      Drops e (Members.contains (e.siblingKey key) members) rel x y →
      Drops e beside (.key key :: rel) (.obj members) (.obj (Members.insert key y members))

/-- Arms are left out one after the other. -/
def Fewer (e : Engine) (beside : Bool) : Json → Json → Prop :=
  Relation.ReflTransGen fun d t => ∃ rel, e.Drops beside rel d t

theorem isChoice_keys (h : Members.keys members = Members.keys ms) : e.isChoice members = e.isChoice ms := by
  have hkeys : ∀ members : Members Json, e.isChoice members = (Members.keys members).any e.choosing := by
    intro members
    rw [isChoice, Members.keys, List.any_map]
    rfl
  rw [hkeys, hkeys, h]

theorem contains_keys (h : Members.keys members = Members.keys ms) (key : String) :
    Members.contains key members = Members.contains key ms := by
  rw [Bool.eq_iff_iff, Members.contains_iff, Members.contains_iff, h]

theorem ascending_keys (h : Members.keys members = Members.keys ms) (hs : Members.Ascending ms) :
    Members.Ascending members := by
  unfold Members.Ascending
  rw [h]
  exact hs

theorem fewer_prune : e.Fewer beside (.obj members) (.obj (e.prune beside members)) := by
  unfold prune
  cases hd : e.discarded beside members with
  | none => exact .refl
  | some arm =>
    rw [Option.elim_some]
    by_cases hc : Members.contains arm members = true
    · exact .single ⟨_, .here hd hc⟩
    · rw [Members.erase_of_not_mem fun hm => hc (Members.contains_iff.mpr hm)]
      exact .refl

mutual

/-- A document is trimmed arm by arm. -/
theorem fewer_trim : ∀ (node : Json), node.Ordered → ∀ beside, e.Fewer beside node (e.trim beside node)
  | .obj members, ho, beside => by
    obtain ⟨hasc, hvalues⟩ := Json.ordered_obj.mp ho
    exact (fewer_trimMembers members hvalues members [] rfl hasc beside).trans fewer_prune
  | .arr items, ho, _ => fewer_trimItems items (Json.ordered_arr.mp ho) []
  | .null, _, _ | .bool _, _, _ | .num _, _, _ | .str _, _, _ => .refl

theorem fewer_trimItems : ∀ (items : List Json), (∀ item ∈ items, item.Ordered) → ∀ (pre : List Json) {beside : Bool},
    e.Fewer beside (.arr (pre ++ items)) (.arr (pre ++ trimItems e items))
  | [], _, pre, _ => .refl
  | item :: rest, ho, pre, beside => by
    obtain ⟨hitem, hrest⟩ := List.forall_mem_cons.mp ho
    have hfirst : e.Fewer beside (.arr (pre ++ item :: rest)) (.arr (pre ++ e.trim false item :: rest)) := by
      refine Relation.ReflTransGen.lift (fun y => Json.arr (pre ++ y :: rest)) (fun x y h => ?_) _ _
        (fewer_trim item hitem false)
      obtain ⟨rel, h⟩ := h
      refine ⟨.index pre.length :: rel, ?_⟩
      have hstep : e.Drops beside (.index pre.length :: rel) (.arr (pre ++ x :: rest)) _ := .item (by simp) h
      rwa [List.set_append_right _ _ (Nat.le_refl _), Nat.sub_self, List.set_cons_zero] at hstep
    have hlater : e.Fewer beside _ _ := fewer_trimItems rest hrest (pre ++ [e.trim false item])
    rw [List.append_assoc, List.singleton_append, List.append_assoc, List.singleton_append] at hlater
    exact hfirst.trans hlater

theorem fewer_trimMembers : ∀ (ms : List (String × Json)), (∀ m ∈ ms, m.2.Ordered) → ∀ (all pre : Members Json),
    Members.keys (pre ++ ms) = Members.keys all → Members.Ascending all → ∀ beside,
    e.Fewer beside (.obj (pre ++ ms)) (.obj (pre ++ trimMembers e all ms))
  | [], _, _, _, _, _, _ => .refl
  | (key, value) :: rest, ho, all, pre, hkeys, hasc, beside => by
    obtain ⟨hvalue, hrest⟩ := List.forall_mem_cons.mp ho
    have hsame : ∀ x : Json, Members.keys (pre ++ (key, x) :: rest) = Members.keys all := by
      intro x
      rw [← hkeys]
      simp [Members.keys]
    have hfirst : e.Fewer beside (.obj (pre ++ (key, value) :: rest)) (.obj (pre ++ (key,
        if e.isChoice all && isArm key then value else e.trim (Members.contains (e.siblingKey key) all) value) :: rest)) := by
      cases harm : e.isChoice all && isArm key with
      | true =>
        rw [if_pos rfl]
        exact .refl
      | false =>
        rw [if_neg Bool.false_ne_true]
        refine Relation.ReflTransGen.lift (fun y => Json.obj (pre ++ (key, y) :: rest)) (fun x y h => ?_) _ _
          (fewer_trim value hvalue (Members.contains (e.siblingKey key) all))
        obtain ⟨rel, h⟩ := h
        have hx := ascending_keys (hsame x) hasc
        refine ⟨.key key :: rel, ?_⟩
        change e.Drops beside _ _ (.obj (pre ++ (key, y) :: rest))
        rw [← Members.insert_middle hx y]
        refine .member (Members.get?_of_mem hx (List.mem_append_right _ (List.mem_cons_self ..))) ?_ ?_
        · rw [isChoice_keys (hsame x), harm]
        · rwa [contains_keys (hsame x)]
    have hlater := fewer_trimMembers rest hrest all (pre ++ [(key,
      if e.isChoice all && isArm key then value else e.trim (Members.contains (e.siblingKey key) all) value)])
      (by rw [List.append_assoc, List.singleton_append, hsame]) hasc beside
    rw [List.append_assoc, List.singleton_append, List.append_assoc, List.singleton_append] at hlater
    exact hfirst.trans hlater

end

/-! ## One arm -/

theorem Drops.without (h : e.Drops beside rel d t) : Without rel d t := by
  induction h with
  | @here _ members arm _ hc =>
    obtain ⟨c, hg⟩ := Option.isSome_iff_exists.mp hc
    exact Locator.assign_cons_eq_some.mpr ⟨c, none, hg, rfl, rfl⟩
  | item hi _ ih => exact Locator.assign_cons_eq_some.mpr ⟨_, _, hi, ih, rfl⟩
  | member hg _ _ ih => exact Locator.assign_cons_eq_some.mpr ⟨_, _, hg, ih, rfl⟩

/-- What is left out is the arm of a choice. -/
theorem Drops.is_arm (h : e.Drops beside rel d t) : ∃ host condition, rel = host ++ [.key (armKey !condition)] := by
  induction h with
  | @here beside members arm hd _ =>
    unfold discarded at hd
    split at hd
    · split at hd
      · cases hd
      · cases hd
        exact ⟨[], _, rfl⟩
    · cases hd
  | @item _ _ n _ _ _ _ _ ih =>
    obtain ⟨host, condition, rfl⟩ := ih
    exact ⟨.index n :: host, condition, rfl⟩
  | @member _ _ key _ _ _ _ _ _ ih =>
    obtain ⟨host, condition, rfl⟩ := ih
    exact ⟨.key key :: host, condition, rfl⟩

theorem Drops.removed (h : e.Drops beside rel d t) : Locator.remove? rel d = some t := by
  have hw := h.without
  obtain ⟨host, condition, rfl⟩ := h.is_arm
  obtain ⟨n, hn⟩ := Locator.walk_of_assign hw
  rw [Locator.remove?_eq_assign hn, hw]
  rfl

theorem Drops.ordered (h : e.Drops beside rel d t) (ho : d.Ordered) : t.Ordered := Locator.remove?_ordered ho h.removed

theorem Drops.sound (h : e.Drops beside rel d t) (hd : d.Sound) : t.Sound :=
  Edit.remove?_sound hd h.removed

/-- Only a container can be left without something. -/
theorem Drops.containers (h : e.Drops beside rel x y) :
    (x ≠ .bool true ∧ x.text? = none) ∧ y ≠ .bool true ∧ y.text? = none := by
  cases h <;> exact ⟨⟨nofun, rfl⟩, nofun, rfl⟩

/-! ## Scanned without an arm -/

section Scan

/-- An invocation does not depend on what stands inside a container that is its argument. -/
theorem bind_written {entries : Members ByteArray} (himports : e.imports = Imports.ofEntries entries)
    (hx : x ≠ .bool true ∧ x.text? = none) (hy : y ≠ .bool true ∧ y.text? = none) (v : Directive) :
    e.bind doc host v key y = e.bind doc host v key x := by
  unfold bind
  rw [if_neg hx.1, if_neg hy.1, himports]
  unfold Imports.ofEntries
  rw [hx.2, hy.2]

theorem invoked_insert (hs : Members.Ascending members) (hx : Members.get? key members = some x) (y : Json) :
    e.invoked host (Members.insert key y members) =
      (e.invoked host members).map (Option.map fun z => (z.1, z.2.1, if z.2.1 = key then y else z.2.2)) := by
  have hself : Members.insert key x members = members := by
    refine Members.eq_of_get? hs.insert hs fun k => ?_
    by_cases hk : key = k
    · rw [← hk, Members.get?_insert_self, hx]
    · rw [Members.get?_insert_of_ne hk]
  have hmap := invoked_map (e := e) host (fun k v => if k = key then y else v) (Members.insert key x members)
  rwa [← Members.insert_map hs key x y, hself] at hmap

theorem calls_erase (hk : Directive.isShaped key e.config.domain = false) (members : Members Json) :
    e.calls (Members.erase key members) = e.calls members := by
  fun_induction Members.erase key members with
  | case1 => rfl
  | case2 v rest => simp [calls_cons, hk]
  | case3 k v rest _ ih => rw [calls_cons, calls_cons, ih]

theorem scanMembers_insert {skip : Bool} (h : e.scanNode doc (at_ ++ [.key key]) y = e.scanNode doc (at_ ++ [.key key]) x)
    (hs : Members.Ascending members) (hx : Members.get? key members = some x) :
    scanMembers e doc at_ skip (Members.insert key y members) = scanMembers e doc at_ skip members := by
  induction members with
  | nil => cases hx
  | cons m rest ih =>
    obtain ⟨k, v⟩ := m
    unfold Members.insert
    split
    · rename_i hlt
      have hne : k ≠ key := fun he => String.lt_irrefl key (he ▸ hlt)
      rw [Members.get?_cons_of_ne hne] at hx
      rw [scanMembers, scanMembers, ih hs.tail hx]
    · rename_i hlt
      split
      · rename_i heq
        subst heq
        rw [Members.get?_cons_self] at hx
        cases hx
        rw [scanMembers, scanMembers, h]
      · rename_i hne
        rw [Members.get?_cons_of_ne hne] at hx
        exact absurd (Members.lt_of_get? hs hx) hlt

theorem scanItems_set (h : e.scanNode doc (at_ ++ [.index (n + m)]) y = e.scanNode doc (at_ ++ [.index (n + m)]) x)
    (hx : items[m]? = some x) : scanItems e doc at_ n (items.set m y) = scanItems e doc at_ n items := by
  induction items generalizing n m with
  | nil => cases hx
  | cons item rest ih =>
    cases m with
    | zero =>
      cases hx
      rw [List.set_cons_zero, scanItems, scanItems]
      rw [Nat.add_zero] at h
      rw [h]
    | succ m =>
      rw [List.set_cons_succ, scanItems, scanItems, ih ?_ hx]
      rwa [Nat.add_assoc, Nat.add_comm 1 m]

theorem scanMembers_erase (harm : isArm arm = true) (members : Members Json) :
    scanMembers e doc at_ true (Members.erase arm members) = scanMembers e doc at_ true members := by
  fun_induction Members.erase arm members with
  | case1 => rfl
  | case2 v rest =>
    have hskip : (true && isArm arm) = true := by rw [harm, Bool.and_self]
    rw [scanMembers, if_pos hskip]
    change _ = scanMembers e doc at_ true rest >>= pure
    rw [bind_pure]
  | case3 k v rest _ ih => rw [scanMembers, scanMembers, ih]

/-- Where a choice is invoked, its key is the one shaped key. -/
theorem discarded_host {found : Option (Directive × String × Json)} (h : e.discarded beside members = some arm)
    (hi : e.invocation? members = some found) :
    ∃ v key condition, found = some (v, key, .bool condition) ∧ v.verb = .choose ∧
      arm = armKey !condition ∧ (condition = true → beside = false) := by
  unfold discarded at h
  split at h
  · rename_i key condition hfind
    have hmem := List.mem_of_find?_eq_some hfind
    have hchoosing := List.find?_some hfind
    unfold choosing at hchoosing
    cases hparse : Directive.parse? key e.config.domain with
    | none =>
      rw [hparse] at hchoosing
      cases hchoosing
    | some v =>
      rw [hparse] at hchoosing
      have hshaped := Directive.shaped_of_parse hparse
      cases found with
      | none => exact absurd ⟨_, hmem, hshaped⟩ (invocation?_eq_none.mp hi)
      | some found =>
        obtain ⟨w, l, a⟩ := found
        obtain ⟨-, hw, hall⟩ := invocation?_some hi
        cases (hall _ hmem).mp hshaped
        rw [hparse] at hw
        cases hw
        refine ⟨v, key, condition, rfl, by simpa using hchoosing, ?_⟩
        split at h
        · cases h
        · rename_i hnot
          cases h
          refine ⟨rfl, fun hc => ?_⟩
          rw [hc, Bool.true_and] at hnot
          simpa using hnot
  · cases h

/-- An object from which the arm is gone is scanned as before. -/
theorem scanNode_erase_arm {members : Members Json} {arm : String} (hd : e.discarded beside members = some arm)
    (harm : isArm arm = true) (doc : Json) (at_ : Locator) :
    e.scanNode doc at_ (.obj (Members.erase arm members)) = e.scanNode doc at_ (.obj members) := by
  have hunshaped : Directive.isShaped arm e.config.domain = false := by
    refine Bool.eq_false_iff.mpr fun hs => ?_
    rw [isArm_of_shaped hs] at harm
    cases harm
  have hsame : e.invoked at_ (Members.erase arm members) = e.invoked at_ members := by
    rw [invoked_eq, invoked_eq, calls_erase hunshaped]
  rw [scanNode, scanNode, hsame]
  cases hi : e.invoked at_ members with
  | error cause => rfl
  | ok found =>
    obtain ⟨v, key, condition, rfl, hverb, -⟩ := discarded_host hd ((invoked_ok at_).mp hi)
    have hskip : (v.verb == .choose) = true := by simp [hverb]
    change scanMembers e doc at_ (v.verb == .choose) _ >>= _ = scanMembers e doc at_ (v.verb == .choose) _ >>= _
    rw [hskip, scanMembers_erase harm]

/-- The scan of a node does not depend on an arm that is not taken. -/
theorem scanNode_drops {entries : Members ByteArray} (himports : e.imports = Imports.ofEntries entries)
    (h : e.Drops beside rel node node') (ho : node.Ordered) (doc : Json) (at_ : Locator) :
    e.scanNode doc at_ node' = e.scanNode doc at_ node := by
  induction h generalizing at_ with
  | @here beside members arm hd hc =>
    have harm : isArm arm = true := by
      obtain ⟨host, condition, hrel⟩ := (Drops.here hd hc).is_arm
      cases Literal.last_key (q := []) hrel
      exact Literal.armKey_isArm _
    exact scanNode_erase_arm hd harm doc at_
  | item hi _ ih =>
    rw [scanNode, scanNode]
    refine scanItems_set ?_ hi
    rw [Nat.zero_add]
    exact ih (Json.ordered_arr.mp ho _ (List.mem_of_getElem? hi)) _
  | @member beside members key x y rel hg harm h ih =>
    have hasc := (Json.ordered_obj.mp ho).1
    rw [scanNode, scanNode, invoked_insert hasc hg]
    cases hi : e.invoked at_ members with
    | error cause => rfl
    | ok found =>
      have hown : e.ownOf doc at_ (found.map fun z => (z.1, z.2.1, if z.2.1 = key then y else z.2.2)) =
          e.ownOf doc at_ found := by
        cases found with
        | none => rfl
        | some found =>
          obtain ⟨v, k, a⟩ := found
          obtain ⟨hm, -, -⟩ := invocation?_some ((invoked_ok at_).mp hi)
          change [e.bind doc at_ v k (if k = key then y else a)] = [e.bind doc at_ v k a]
          split
          · rename_i hk
            subst hk
            rw [Members.get?_of_mem hasc hm] at hg
            cases hg
            obtain ⟨hx, hy⟩ := h.containers
            rw [bind_written himports hx hy]
          · rfl
      have hskip : ((found.map fun z => (z.1, z.2.1, if z.2.1 = key then y else z.2.2)).any (·.1.verb == .choose)) =
          found.any (·.1.verb == .choose) := by
        cases found <;> rfl
      change (scanMembers e doc at_ ((found.map _).any fun z : Directive × String × Json => z.1.verb == .choose) _ >>=
          fun below => pure (e.ownOf doc at_ _ ++ below)) =
        scanMembers e doc at_ (found.any (·.1.verb == .choose)) _ >>= fun below => pure (e.ownOf doc at_ found ++ below)
      rw [hown, hskip, scanMembers_insert (ih (Json.Ordered.get? ho hg) _) hasc hg]

mutual

/-- A scan reads the document only for the argument siblings of the objects that it visits. -/
theorem scanNode_congr : ∀ (node : Json) {at_ : Locator}, (∀ rel target, e.Visited node rel target →
    e.argumentSibling? d (at_ ++ rel) = e.argumentSibling? doc (at_ ++ rel)) → e.scanNode d at_ node = e.scanNode doc at_ node
  | .obj members, at_, h => by
    rw [scanNode, scanNode]
    cases hi : e.invoked at_ members with
    | error cause => rfl
    | ok found =>
      have hown : e.ownOf d at_ found = e.ownOf doc at_ found := by
        have hhere := h [] _ (.here _)
        rw [List.append_nil] at hhere
        unfold ownOf bind
        rw [hhere]
      have hskip : (found.any fun (d, _) => d.verb == .choose) = e.skips members := by
        rw [skips, (invoked_ok at_).mp hi]
        rfl
      change (scanMembers e d at_ _ _ >>= fun below => pure (e.ownOf d at_ found ++ below)) =
        scanMembers e doc at_ _ _ >>= fun below => pure (e.ownOf doc at_ found ++ below)
      rw [hown, hskip, scanMembers_congr members fun m hm harm rel target hv => ?_]
      have := h (.key m.1 :: rel) target (.member hm harm hv)
      rwa [List.append_cons] at this
  | .arr items, at_, h => by
    rw [scanNode, scanNode]
    refine scanItems_congr items fun n item hi rel target hv => ?_
    have := h (.index n :: rel) target (.item hi hv)
    rwa [List.append_cons, ← Nat.zero_add n] at this
  | .null, _, _ | .bool _, _, _ | .num _, _, _ | .str _, _, _ => rfl

theorem scanItems_congr : ∀ (items : List Json) {at_ : Locator} {position : Nat},
    (∀ (n : Nat) (item : Json), items[n]? = some item → ∀ rel target, e.Visited item rel target → e.argumentSibling? d (at_ ++ [.index (position + n)] ++ rel) =
      e.argumentSibling? doc (at_ ++ [.index (position + n)] ++ rel)) →
    scanItems e d at_ position items = scanItems e doc at_ position items
  | [], _, _, _ => rfl
  | item :: rest, at_, position, h => by
    rw [scanItems, scanItems, scanNode_congr item fun rel target hv => ?_, scanItems_congr rest fun n item hi rel target hv => ?_]
    · have := h (n + 1) item hi rel target hv
      rwa [Nat.add_comm n 1, ← Nat.add_assoc] at this
    · exact h 0 item rfl rel target hv

theorem scanMembers_congr : ∀ (members : List (String × Json)) {at_ : Locator} {skip : Bool}, (∀ m ∈ members,
    (skip && isArm m.1) = false → ∀ rel target, e.Visited m.2 rel target →
      e.argumentSibling? d (at_ ++ [.key m.1] ++ rel) = e.argumentSibling? doc (at_ ++ [.key m.1] ++ rel)) →
    scanMembers e d at_ skip members = scanMembers e doc at_ skip members
  | [], _, _, _ => rfl
  | (key, value) :: rest, at_, skip, h => by
    obtain ⟨hfirst, hrest⟩ := List.forall_mem_cons.mp h
    rw [scanMembers, scanMembers, scanMembers_congr rest hrest]
    cases hs : skip && isArm key with
    | true => rfl
    | false => rw [if_neg Bool.false_ne_true, if_neg Bool.false_ne_true, scanNode_congr value (hfirst hs)]

end

theorem faults_bind {α β : Type} {a b : Except Error α} {f g : α → Except Error β}
    (h : a.map (fun _ => ()) = b.map fun _ => ()) (hf : ∀ r s, (f r).map (fun _ => ()) = (g s).map fun _ => ()) :
    (a >>= f).map (fun _ => ()) = (b >>= g).map fun _ => () := by
  cases a with
  | error cause =>
    cases b with
    | error other =>
      cases h
      rfl
    | ok s => cases h
  | ok r =>
    cases b with
    | error other => cases h
    | ok s => exact hf r s

mutual

/-- What is wrong with the keys of a node is wrong in every document. -/
theorem scanNode_faults (d doc : Json) : ∀ (node : Json) {at_ : Locator},
    (e.scanNode d at_ node).map (fun _ => ()) = (e.scanNode doc at_ node).map fun _ => ()
  | .obj members, at_ => by
    rw [scanNode, scanNode]
    cases e.invoked at_ members with
    | error cause => rfl
    | ok found =>
      change (scanMembers e d at_ _ _ >>= _).map _ = (scanMembers e doc at_ _ _ >>= _).map _
      exact faults_bind (scanMembers_faults d doc members) fun _ _ => rfl
  | .arr items, at_ => by
    rw [scanNode, scanNode]
    exact scanItems_faults d doc items
  | .null, _ | .bool _, _ | .num _, _ | .str _, _ => rfl

theorem scanItems_faults (d doc : Json) : ∀ (items : List Json) {at_ : Locator} {position : Nat},
    (scanItems e d at_ position items).map (fun _ => ()) = (scanItems e doc at_ position items).map fun _ => ()
  | [], _, _ => rfl
  | item :: rest, at_, position => by
    rw [scanItems, scanItems]
    exact faults_bind (scanNode_faults d doc item) fun _ _ => faults_bind (scanItems_faults d doc rest) fun _ _ => rfl

theorem scanMembers_faults (d doc : Json) : ∀ (members : List (String × Json)) {at_ : Locator} {skip : Bool},
    (scanMembers e d at_ skip members).map (fun _ => ()) = (scanMembers e doc at_ skip members).map fun _ => ()
  | [], _, _ => rfl
  | (key, value) :: rest, at_, skip => by
    rw [scanMembers, scanMembers]
    cases skip && isArm key with
    | true => exact faults_bind rfl fun _ _ => faults_bind (scanMembers_faults d doc rest) fun _ _ => rfl
    | false => exact faults_bind (scanNode_faults d doc value) fun _ _ => faults_bind (scanMembers_faults d doc rest) fun _ _ => rfl

end

theorem isChoice_of_skips (h : e.skips members = true) : e.isChoice members = true := by
  unfold skips at h
  cases hi : (e.invocation? members).join with
  | none =>
    rw [hi] at h
    cases h
  | some found =>
    obtain ⟨v, k, a⟩ := found
    rw [hi] at h
    obtain ⟨hm, hv, -⟩ := invocation?_some (Option.join_eq_some_iff.mp hi)
    refine List.any_eq_true.mpr ⟨_, hm, ?_⟩
    rw [choosing, hv]
    exact h

/-- What is left out of a node that can be scanned is the arm of a visited choice. -/
theorem Drops.choice {is : List Invocation} (h : e.Drops beside rel node node')
    (hscan : e.scanNode doc at_ node = .ok is) (hw : Locator.walk at_ doc = some node)
    (hb : (e.argumentSibling? doc at_).isSome = beside) :
    ∃ r members v key condition, rel = r ++ [.key (armKey !condition)] ∧ e.Visited node r (.obj members) ∧
      e.host? (.obj members) = some (v, key, .bool condition) ∧ v.verb = .choose ∧
      (condition = true → e.argumentSibling? doc (at_ ++ r) = none) := by
  induction h generalizing at_ is with
  | @here beside members arm hd hc =>
    obtain ⟨found, -, hi, -⟩ := scanNode_obj.mp hscan
    obtain ⟨v, key, condition, rfl, hverb, rfl, hbeside⟩ := discarded_host hd hi
    refine ⟨[], members, v, key, condition, rfl, .here _, host?_obj.mpr hi, hverb, fun hc => ?_⟩
    rw [hbeside hc] at hb
    rw [List.append_nil]
    exact Option.isSome_eq_false_iff.mp hb |> Option.isNone_iff_eq_none.mp
  | @item beside items n x y rel hi h ih =>
    obtain ⟨here, hhere⟩ := scanItems_child hscan hi
    rw [Nat.zero_add] at hhere
    have hnone := argumentSibling?_item (e := e) doc at_ n
    obtain ⟨r, members, v, key, condition, rfl, hv, hh, hverb, hs⟩ := ih hhere
      (by rw [Locator.walk_snoc, hw]; exact hi) (by rw [hnone]; rfl)
    refine ⟨.index n :: r, members, v, key, condition, rfl, .item hi hv, hh, hverb, ?_⟩
    rwa [List.append_cons]
  | @member beside members key x y rel hg harm h ih =>
    obtain ⟨found, below, -, hbelow, -⟩ := scanNode_obj.mp hscan
    have hskip : (e.skips members && isArm key) = false := by
      cases hs : e.skips members with
      | false => rfl
      | true => rwa [isChoice_of_skips hs] at harm
    obtain ⟨here, hhere⟩ := scanMembers_child hbelow (Members.mem_of_get? hg) hskip
    have hsibling : (e.argumentSibling? doc (at_ ++ [.key key])).isSome = Members.contains (e.siblingKey key) members := by
      rw [argumentSibling?_member, Locator.resolve_member hw, Locator.walk_snoc, hw]
      change (if (Members.get? (e.siblingKey key) members).isSome = true then _ else none).isSome =
        (Members.get? (e.siblingKey key) members).isSome
      cases Members.get? (e.siblingKey key) members <;> rfl
    obtain ⟨r, inner, v, k, condition, rfl, hv, hh, hverb, hs⟩ := ih hhere (by rw [Locator.walk_snoc, hw]; exact hg) hsibling
    refine ⟨Segment.key key :: r, inner, v, k, condition, rfl, .member (Members.mem_of_get? hg) hskip hv, hh, hverb, ?_⟩
    rwa [List.append_cons]

end Scan

section Documents

variable {entries : Members ByteArray} {found : List Invocation}

/-- What is left out of a document that can be scanned is an arm of a choice with a literal condition. -/
theorem Drops.literal (h : e.Drops false rel d t) (hfound : e.scan d = .ok found) :
    ∃ host members v key condition, rel = host ++ [.key (armKey !condition)] ∧ e.Literal d host members v key condition := by
  obtain ⟨host, members, v, key, condition, hrel, hv, hh, hverb, hs⟩ := h.choice hfound rfl rfl
  refine ⟨host, members, v, key, condition, hrel, hv, hh, hverb, ?_⟩
  rw [bind_argumentSibling?]
  split
  · rename_i htrue
    cases htrue
    exact hs rfl
  · rfl

/-- An argument sibling is there with and without the arm. -/
theorem Literal.sibling_drops {members : Members Json} {v : Directive} {r : Locator}
    (hl : e.Literal d host members v key condition)
    (hsuffix : e.config.argsSuffix = "_args") (ho : d.Ordered) (h : Without (host ++ [.key (armKey !condition)]) d t)
    (hv : e.Visited d r node) : e.argumentSibling? t r = e.argumentSibling? d r := by
  rcases List.eq_nil_or_concat' r with rfl | ⟨q, s, rfl⟩
  · rfl
  · cases s with
    | index n => rw [argumentSibling?_item, argumentSibling?_item]
    | key k =>
      obtain ⟨parent, hq, hk⟩ := hv.split
      cases hk with
      | @member ps _ _ _ _ _ _ _ =>
        have hparent := (hq.walk ho).1
        -- nothing is visited in the arm, and the sibling of a key is no arm
        have hnot : ¬ host ++ [.key (armKey !condition)] <+: q ++ [.key (e.siblingKey k)] := by
          intro hp
          rcases List.prefix_concat_iff.mp hp with heq | hp
          · have := siblingKey_not_arm hsuffix k
            rw [← Literal.last_key heq, Literal.armKey_isArm] at this
            cases this
          · exact hl.not_in_arm ho hq hp
        obtain ⟨n, hn, hkept⟩ := (Locator.assign_retains h fun hp => hl.not_in_arm ho hq hp).there _ hparent
        obtain ⟨qs, rfl⟩ := hkept.obj
        have hsame : (Locator.resolve (q ++ [.key (e.siblingKey k)]) t).isSome =
            (Locator.resolve (q ++ [.key (e.siblingKey k)]) d).isSome := by
          rw [Locator.resolve_member hn, Locator.resolve_member hparent]
          exact (Locator.assign_retains h hnot).isSome_eq
        rw [argumentSibling?_member, argumentSibling?_member, hsame]

/-- A scan finds the same with and without the arm. -/
theorem scan_drops (hsuffix : e.config.argsSuffix = "_args") (himports : e.imports = Imports.ofEntries entries)
    (h : e.Drops false rel d t) (ho : d.Ordered) : e.scan t = e.scan d := by
  refine (scanNode_drops himports h ho t Locator.root).trans ?_
  change e.scanNode t Locator.root d = e.scanNode d Locator.root d
  cases hscan : e.scanNode d Locator.root d with
  | error cause =>
    have hfaults : (e.scanNode t Locator.root d).map (fun _ => ()) = (e.scanNode d Locator.root d).map fun _ => () :=
      scanNode_faults t d d
    rw [hscan] at hfaults
    cases hother : e.scanNode t Locator.root d with
    | ok found =>
      rw [hother] at hfaults
      cases hfaults
    | error other =>
      rw [hother] at hfaults
      cases hfaults
      rfl
  | ok found =>
    obtain ⟨host, members, v, key, condition, rfl, hl⟩ := h.literal hscan
    rw [← hscan]
    refine scanNode_congr d fun r target hv => ?_
    exact hl.sibling_drops hsuffix ho h.without hv

/-- A pass ends the same with and without the arm. -/
theorem runPass_drops (hsuffix : e.config.argsSuffix = "_args") (himports : e.imports = Imports.ofEntries entries)
    (h : e.Drops false rel d t) (hd : d.Sound) (ho : d.Ordered) :
    Alike (· = ·) (e.runPass.runOn d) (e.runPass.runOn t) := by
  have hscan := scan_drops hsuffix himports h ho
  cases hfound : e.scan d with
  | error cause =>
    rw [runOn_runPass, runOn_runPass, hscan, hfound]
    exact .error (.same cause)
  | ok found =>
    have hwithout := h.without
    have ht := h.sound hd
    have hto := h.ordered ho
    obtain ⟨host, members, v, key, condition, rfl, hl⟩ := h.literal hfound
    exact hl.runPass_without hsuffix ho hto hd ht hwithout hscan hfound

/-- So does an expansion. -/
theorem expand_drops (hsuffix : e.config.argsSuffix = "_args") (himports : e.imports = Imports.ofEntries entries)
    (h : e.Drops false rel d t) (hd : d.Sound) (ho : d.Ordered) : Alike (· = ·) (e.expand.runOn d) (e.expand.runOn t) := by
  unfold expand
  cases e.config.maxPasses with
  | zero =>
    rw [runOn_expandFrom_zero, runOn_expandFrom_zero, scan_drops hsuffix himports h ho]
    cases hfound : e.scan d with
    | error cause => exact .error (.same cause)
    | ok found =>
      -- there is the choice to carry out
      obtain ⟨host, members, v, key, condition, -, hl⟩ := h.literal hfound
      have hmem := (mem_scan hfound _).mpr ⟨host, _, v, key, _, hl.visited, hl.bound, rfl⟩
      obtain ⟨i, rest, rfl⟩ := List.exists_cons_of_ne_nil (List.ne_nil_of_mem hmem)
      exact .error (.same _)
  | succ left =>
    have hpass := runPass_drops hsuffix himports h hd ho
    rw [runOn_expandFrom_succ, runOn_expandFrom_succ]
    revert hpass
    generalize e.runPass.runOn d = a
    generalize e.runPass.runOn t = b
    intro hpass
    cases hpass with
    | @ok count d1 t1 heq =>
      subst heq
      cases count with
      | zero => exact .ok rfl
      | succ count => exact Alike.refl _
    | error hx => exact .error hx

theorem expand_fewer (hsuffix : e.config.argsSuffix = "_args") (himports : e.imports = Imports.ofEntries entries)
    (h : e.Fewer false d t) (hd : d.Sound) (ho : d.Ordered) :
    Alike (· = ·) (e.expand.runOn d) (e.expand.runOn t) ∧ t.Sound ∧ t.Ordered := by
  induction h with
  | refl => exact ⟨.refl _, hd, ho⟩
  | tail _ hstep ih =>
    obtain ⟨halike, hm, hmo⟩ := ih
    obtain ⟨rel, hdrop⟩ := hstep
    exact ⟨halike.trans (expand_drops hsuffix himports hdrop hm hmo), hdrop.sound hm, hdrop.ordered hmo⟩

/-- Documents that differ only in arms that are not taken expand to the same, in as many passes, or fail for one cause. -/
theorem expand_trim {a b : Json} (hsuffix : e.config.argsSuffix = "_args") (himports : e.imports = Imports.ofEntries entries)
    (ha : Opened a) (hb : Opened b) (hao : a.Ordered) (hbo : b.Ordered) (h : e.trim false a = e.trim false b) :
    Alike (· = ·) (e.expand.runOn a) (e.expand.runOn b) := by
  obtain ⟨halike, -⟩ := expand_fewer hsuffix himports (fewer_trim a hao false) (opened_sound ha) hao
  obtain ⟨hother, -⟩ := expand_fewer hsuffix himports (fewer_trim b hbo false) (opened_sound hb) hbo
  rw [← h] at hother
  exact halike.trans hother.symm

/-- Faults in an arm that is not taken. -/
def faulty : Json := .obj [("a", .arr [.obj [("else", .obj [("kubegen.Null.Else", .null)]), ("kubegen.Null.If", .bool true),
  ("then", .str "x")]]), ("b", .obj [("kubegen.Null.If", .bool false), ("then", .obj [("kubegen.String.Lookup", .str "p")])])]

/-- The same choices, with nothing to be left out. -/
def faultless : Json :=
  .obj [("a", .arr [.obj [("kubegen.Null.If", .bool true), ("then", .str "x")]]), ("b", .obj [("kubegen.Null.If", .bool false)])]

theorem expand_trim_faulty :
    plain.trim false faulty = plain.trim false faultless ∧
      Alike (· = ·) (plain.expand.runOn faulty) (plain.expand.runOn faultless) ∧
      plain.expand.runOn faultless = (.ok 1, .obj [("a", .arr [.str "x"])]) := by
  have htrim : plain.trim false faulty = plain.trim false faultless := by decide +kernel
  have hfaulty : Opened faulty := .inl ⟨_, accept_ok.mpr ⟨rfl, by decide⟩⟩
  have hfaultless : Opened faultless := .inl ⟨_, accept_ok.mpr ⟨rfl, by decide⟩⟩
  have himports : plain.imports = Imports.ofEntries [] := rfl
  exact ⟨htrim, expand_trim rfl himports hfaulty hfaultless (by decide) (by decide) htrim, by rfl⟩

/-! ## What the reader reports -/

/-- Arrays one inside another, `depth` of them around an empty one. -/
def boxed : Nat → Json
  | 0 => .arr []
  | depth + 1 => .arr [boxed depth]

theorem boxed_nesting (depth : Nat) : (boxed depth).nesting = depth + 1 := by
  induction depth with
  | zero => rfl
  | succ depth ih =>
    rw [boxed, Json.nesting, Json.nestingItems, Json.nestingItems, ih]
    rfl

theorem boxed_toJson (depth : Nat) : (Yaml.ofJson (boxed depth)).toJson = boxed depth := by
  induction depth with
  | zero => rfl
  | succ depth ih =>
    change Json.arr [(Yaml.ofJson (boxed depth)).toJson] = Json.arr [boxed depth]
    rw [ih]

/-- A parameter that is nearly as deep as a document can be. -/
def deepening : Engine := ⟨{ parameters := [("p", .ofJson (boxed 125))] }, fun _ _ => none⟩

/-- A choice that does not take the arm `unused`, and an object that is deeper than it. -/
def armed (unused other : Json) : Json :=
  .obj [("a", .obj [("else", unused), ("kubegen.Null.If", .bool true)]), ("b", .obj [("c", other)])]

/-- With a look-up there. -/
def deeper (unused : Json) : Json := armed unused (.obj [("kubegen.Array.Lookup", .str "p")])

def armedChoice : Invocation :=
  let branch : Locator := [.key "a", .key "kubegen.Null.If"]
  { directive := ⟨.null, .a, .choose⟩, branch, input := branch }

def deeperLookup : Invocation :=
  let branch : Locator := [.key "b", .key "c", .key "kubegen.Array.Lookup"]
  { directive := ⟨.array, .b, .lookup⟩, branch, input := branch }

/-- The look-up made the document too deep, and the text that does not read back has the arm in it. -/
def tooDeep (unused : Json) : IntegrityFault := .undecodable (armed unused (boxed 125)).encode

theorem verdict_armed (unused : Json) : Edit.verdict (armed unused (boxed 125)) = .error (.integrity (tooDeep unused)) := by
  refine Edit.verdict_eq_error.mpr (.inr ⟨rfl, ?_, rfl⟩)
  change 127 < _
  simp only [armed, Json.nesting, Json.nestingMembers, boxed_nesting]
  omega

theorem act_deeper (unused : Json) :
    (deepening.act deeperLookup).runOn (deeper unused) = (.error (.integrity (tooDeep unused)), deeper unused) := by
  have hparameter : deepening.parameter? "p" = some (boxed 125) := congrArg some (boxed_toJson 125)
  have hinput : Locator.resolve deeperLookup.input (deeper unused) = some (.str "p") := by rfl
  have hdeed : deepening.deed deeperLookup (arm? deeperLookup (deeper unused)) (some (.str "p")) = .write (boxed 125) := by
    simp only [deed, Deed.upon, deeperLookup, hparameter]
    exact if_pos rfl
  have hwritten : Edit.written [.key "b", .key "c"] (.tree (boxed 125)) (deeper unused) = .ok (armed unused (boxed 125)) := by
    rfl
  rw [runOn_act, hinput, hdeed]
  refine (Edit.runOn_put [.key "b", .key "c"] (.tree (boxed 125)) (deeper unused)).trans ?_
  exact Edit.settled_eq_error.mpr ⟨rfl, .inr ⟨_, hwritten, verdict_armed unused⟩⟩

theorem expand_deeper (unused : Json) :
    deepening.expand.runOn (deeper unused) =
      (.error (.invocation "kubegen.Array.Lookup" deeperLookup.branch (.integrity (tooDeep unused))), deeper unused) := by
  have hscan : deepening.scan (deeper unused) = .ok [armedChoice, deeperLookup] := by rfl
  have hs : Invocation.schedule [armedChoice, deeperLookup] = some [deeperLookup, armedChoice] := by decide +kernel
  change (deepening.expandFrom 0 (_ + 1)).runOn _ = _
  rw [runOn_expandFrom_succ, runPass_eq hscan hs, execute, Edit.runOn_bind, apply_error (act_deeper unused)]
  rfl

/-- Where in a text the first bracket is that is one too many, counted from 1. -/
def excess? (quoted : Bool) (depth place : Nat) : List UInt8 → Option Nat
  | 0x5C :: _ :: rest => excess? quoted depth (place + 2) rest
  | 0x22 :: rest => excess? (!quoted) depth (place + 1) rest
  | byte :: rest =>
    if quoted then excess? quoted depth (place + 1) rest
    else if byte = 0x5B ∨ byte = 0x7B then
      if depth = Json.nestingLimit then some place else excess? quoted (depth + 1) (place + 1) rest
    else if byte = 0x5D ∨ byte = 0x7D then excess? quoted (depth - 1) (place + 1) rest
    else excess? quoted depth (place + 1) rest
  | [] => none

/-- A reader of JSON that stops there and says so, of a text without line breaks. -/
def locating : Reports where
  json text := (excess? false 0 1 text.data.toList).elim "" fun place => "recursion limit exceeded at line 1 column " ++ place.repr
  yaml _ := ""
  io _ := ""

theorem tooDeep_message {unused : Json} {place : Nat}
    (h : excess? false 0 1 (((armed unused (boxed 125)).write []).flatMap String.utf8EncodeChar) = some place) :
    Error.message locating (.integrity (tooDeep unused)) =
      "[M005] Integrity error: " ++ ("document does not decode: " ++ ("recursion limit exceeded at line 1 column " ++ place.repr)) := by
  have hreport : locating.json (armed unused (boxed 125)).encode = "recursion limit exceeded at line 1 column " ++ place.repr := by
    change (excess? false 0 1 (armed unused (boxed 125)).encode.data.toList).elim _ _ = _
    rw [Json.encode_bytes, h]
    rfl
  exact congrArg (fun report => "[M005] Integrity error: " ++ ("document does not decode: " ++ report)) hreport

/-- Documents that differ in an arm that is not taken, and fail with different reports. -/
theorem expand_deeper_apart :
    let d := deeper (.num (.ofInt64 0))
    let t := deeper (.num (.ofInt64 12345))
    deepening.config.argsSuffix = "_args" ∧ deepening.imports = Imports.ofEntries [] ∧ Opened d ∧ Opened t ∧
      d.Ordered ∧ t.Ordered ∧ deepening.trim false d = deepening.trim false t ∧
      ∃ x y, (deepening.expand.runOn d).1 = .error x ∧ (deepening.expand.runOn t).1 = .error y ∧
        x.message locating = "[M012] kubegen.Array.Lookup at '/b/c/kubegen.Array.Lookup' failed: [M005] Integrity error: " ++
          "document does not decode: recursion limit exceeded at line 1 column 174" ∧
        y.message locating = "[M012] kubegen.Array.Lookup at '/b/c/kubegen.Array.Lookup' failed: [M005] Integrity error: " ++
          "document does not decode: recursion limit exceeded at line 1 column 178" := by
  intro d t
  have hd := @tooDeep_message (.num (.ofInt64 0)) 174 (by decide +kernel)
  have ht := @tooDeep_message (.num (.ofInt64 12345)) 178 (by decide +kernel)
  have hwrapped : ∀ {source : Error} {text : String}, source.message locating = text →
      Error.message locating (.invocation "kubegen.Array.Lookup" deeperLookup.branch source) =
        "[M012] " ++ "kubegen.Array.Lookup" ++ " at '" ++ deeperLookup.branch.display ++ "' failed: " ++ text :=
    fun h => congrArg (_ ++ ·) h
  exact ⟨rfl, rfl, .inl ⟨_, accept_ok.mpr ⟨rfl, by decide +kernel⟩⟩, .inl ⟨_, accept_ok.mpr ⟨rfl, by decide +kernel⟩⟩,
    by decide +kernel, by decide +kernel, by decide +kernel, _, _, congrArg Prod.fst (expand_deeper _),
    congrArg Prod.fst (expand_deeper _), (hwrapped hd).trans (by decide +kernel), (hwrapped ht).trans (by decide +kernel)⟩

end Documents

end Engine

end DocExpand
