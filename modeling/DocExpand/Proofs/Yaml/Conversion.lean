/-
  DocExpand.Proofs.Yaml.Conversion — what the JSON tree of a YAML value keeps.

  A value carries a tree when it is the tree node by node, but for tags around values and
  members whose key is no string (`Carries`); such a value is converted to exactly that tree
  (`toJson_of_carries`). Of any mapping at all the tree keeps under each name what the last
  member of that name is converted to (`get?_membersToJson`), whatever tags the key has.

  A number is asked for a signed integer first, also one that is held as an unsigned one, and
  for a float last. The answer is the number that it stands for each time, and of no other
  number (`toJson_num_iff`); only a float that is not finite has no answer and becomes null
  (`toJson_num_eq_null`).
-/

import DocExpand.Proofs.Json.Ordered

namespace DocExpand.Yaml

variable {y key value : Yaml} {j : Json} {name : String} {members rest : List (Yaml × Yaml)} {done : Members Json}

/-! ## Numbers -/

namespace Num

/-- Within the range of the signed integers the bits say the same. -/
theorem toInt_toInt64 {u : UInt64} (h : u ≤ Int64.maxValue.toUInt64) : u.toInt64.toInt = u.toNat := by
  have hu : u.toNat ≤ 9223372036854775807 := UInt64.le_iff_toNat_le.mp h
  exact BitVec.toInt_eq_toNat_of_lt (by change 2 * u.toNat < 2 ^ 64; omega)

theorem asInt64?_unsigned (u : UInt64) :
    (unsigned u).asInt64? = if u ≤ Int64.maxValue.toUInt64 then some u.toInt64 else none := rfl

/-- An unsigned integer becomes the number of its value, also where it is taken for a signed one. -/
theorem toNumber?_unsigned (u : UInt64) : (unsigned u).toNumber? = some (.ofUInt64 u) := by
  unfold toNumber?
  rw [asInt64?_unsigned]
  by_cases hu : u ≤ Int64.maxValue.toUInt64
  · simp only [if_pos hu, Number.ofInt64, Number.ofUInt64, toInt_toInt64 hu]
  · simp only [if_neg hu, asUInt64?]

theorem toNumber?_negative (i : Int64) (below : i < 0) : (negative i below).toNumber? = some (.ofInt64 i) := rfl

theorem toNumber?_float (x : Float64) : (float x).toNumber? = Number.ofFloat64? x := rfl

/-- Every number of a tree is the answer of the number that stands for it. -/
theorem toNumber?_ofNumber (n : Number) : (ofNumber n).toNumber? = some n := by
  cases n with
  | float x => rfl
  | int i inRange =>
    simp only [ofNumber]
    by_cases hneg : i < 0
    · rw [dif_pos hneg, toNumber?_negative]
      have hi : (Int64.ofInt i).toInt = i := Int64.toInt_ofInt_of_le inRange.1 (by omega)
      simp only [Number.ofInt64, hi]
    · rw [dif_neg hneg, toNumber?_unsigned]
      have hi : ((UInt64.ofNat i.toNat).toNat : Int) = i := by
        rw [UInt64.toNat_ofNat_of_lt' (by have := inRange.2; simp only [UInt64.size]; omega)]
        omega
      simp only [Number.ofUInt64, hi]

/-- No other number has that answer. -/
theorem ofNumber_of_toNumber? {n : Num} {f : Number} (h : n.toNumber? = some f) : ofNumber f = n := by
  cases n with
  | unsigned u =>
    rw [toNumber?_unsigned] at h
    cases h
    have hu : ¬ ((u.toNat : Int) < 0) := by omega
    simp only [Number.ofUInt64, ofNumber, dif_neg hu, Int.toNat_natCast, UInt64.ofNat_toNat]
  | negative i below =>
    rw [toNumber?_negative] at h
    cases h
    have hi : i.toInt < 0 := Int64.lt_iff_toInt_lt.mp below
    simp only [Number.ofInt64, ofNumber, dif_pos hi, Int64.ofInt_toInt]
  | float x =>
    rw [toNumber?_float] at h
    cases x with
    | finite value =>
      cases h
      rfl
    | infinite _ | nan => cases h

/-- Only a float that is not finite stands for no number. -/
theorem toNumber?_eq_none {n : Num} : n.toNumber? = none ↔ n = .float .nan ∨ ∃ negative, n = .float (.infinite negative) := by
  cases n with
  | unsigned u => simp [toNumber?_unsigned]
  | negative i below => simp [toNumber?_negative]
  | float x => cases x <;> simp [toNumber?_float, Number.ofFloat64?]

end Num

theorem toJson_ofNumber (n : Number) : (num (.ofNumber n)).toJson = .num n := by
  rw [toJson, Num.toJson, Num.toNumber?_ofNumber]
  rfl

theorem toJson_num_iff {n : Num} {f : Number} : (num n).toJson = .num f ↔ n = .ofNumber f := by
  constructor
  · intro h
    rw [toJson, Num.toJson] at h
    cases hn : n.toNumber? with
    | none =>
      rw [hn] at h
      cases h
    | some g =>
      rw [hn] at h
      cases h
      exact (Num.ofNumber_of_toNumber? hn).symm
  · intro h
    rw [h, toJson_ofNumber]

theorem toJson_num_eq_null {n : Num} :
    (num n).toJson = .null ↔ n = .float .nan ∨ ∃ negative, n = .float (.infinite negative) := by
  rw [toJson, Num.toJson, ← Num.toNumber?_eq_none]
  cases n.toNumber? <;> simp

/-! ## Carried trees -/

mutual

/-- The value is the tree node by node, but for tags around values and members of mappings whose key is no string. -/
inductive Carries : Yaml → Json → Prop
  | null : Carries .null .null
  | bool (b : Bool) : Carries (.bool b) (.bool b)
  | num (n : Number) : Carries (.num (.ofNumber n)) (.num n)
  | str (s : String) : Carries (.str s) (.str s)
  | seq {items : List Yaml} {js : List Json} : CarriesItems items js → Carries (.seq items) (.arr js)
  /-- The members may come in any order. -/
  | map {members : List (Yaml × Yaml)} {pairs ms : List (String × Json)} :
      CarriesMembers members pairs → pairs.Perm ms → Carries (.map members) (.obj ms)
  | tagged (tag : String) {y : Yaml} {j : Json} : Carries y j → Carries (.tagged tag y) j

inductive CarriesItems : List Yaml → List Json → Prop
  | nil : CarriesItems [] []
  | cons {y : Yaml} {j : Json} {items : List Yaml} {js : List Json} :
      Carries y j → CarriesItems items js → CarriesItems (y :: items) (j :: js)

inductive CarriesMembers : List (Yaml × Yaml) → List (String × Json) → Prop
  | nil : CarriesMembers [] []
  | named {key value : Yaml} {name : String} {j : Json} {members : List (Yaml × Yaml)} {pairs : List (String × Json)} :
      key.untagged = .str name → Carries value j → CarriesMembers members pairs →
        CarriesMembers ((key, value) :: members) ((name, j) :: pairs)
  | other {key value : Yaml} {members : List (Yaml × Yaml)} {pairs : List (String × Json)} :
      (∀ name, key.untagged ≠ .str name) → CarriesMembers members pairs → CarriesMembers ((key, value) :: members) pairs

end

mutual

theorem carries_ofJson : ∀ j : Json, Carries (ofJson j) j
  | .null => .null
  | .bool b => .bool b
  | .num n => .num n
  | .str s => .str s
  | .arr items => .seq (carriesItems_ofJson items)
  | .obj members => .map (carriesMembers_ofJson members) (.refl members)

theorem carriesItems_ofJson : ∀ items : List Json, CarriesItems (itemsOfJson items) items
  | [] => .nil
  | item :: rest => .cons (carries_ofJson item) (carriesItems_ofJson rest)

theorem carriesMembers_ofJson : ∀ members : List (String × Json), CarriesMembers (membersOfJson members) members
  | [] => .nil
  | (_, value) :: rest => .named rfl (carries_ofJson value) (carriesMembers_ofJson rest)

end

/-! ## Keys -/

/-- Only a string has a text, and it shows through tags. -/
theorem text?_eq_some_iff : key.text? = some name ↔ key.untagged = .str name := by
  fun_induction untagged key with
  | case1 tag value ih => rw [text?, ih]
  | case2 value hplain =>
    cases value with
    | str s => simp [text?]
    | tagged tag value => exact absurd rfl (hplain tag value)
    | null | bool _ | num _ | seq _ | map _ => simp [text?]

theorem text?_eq_none_iff : key.text? = none ↔ ∀ name, key.untagged ≠ .str name := by
  rw [Option.eq_none_iff_forall_ne_some]
  exact forall_congr' fun name => not_congr text?_eq_some_iff

theorem membersToJson_named (h : key.untagged = .str name) (value : Yaml) (rest : List (Yaml × Yaml))
    (done : Members Json) :
    membersToJson ((key, value) :: rest) done = membersToJson rest (Members.insert name value.toJson done) := by
  rw [membersToJson, text?_eq_some_iff.mpr h]

theorem membersToJson_other (h : ∀ name, key.untagged ≠ .str name) (value : Yaml) (rest : List (Yaml × Yaml))
    (done : Members Json) : membersToJson ((key, value) :: rest) done = membersToJson rest done := by
  rw [membersToJson, text?_eq_none_iff.mpr h]

/-! ## The tree that comes out -/

mutual

theorem toJson_of_carries : ∀ (y : Yaml) {j : Json}, Carries y j → j.Ordered → y.toJson = j
  | .null, _, h, _ => by
    cases h
    rfl
  | .bool _, _, h, _ => by
    cases h
    rfl
  | .num _, _, h, _ => by
    cases h
    exact toJson_ofNumber _
  | .str _, _, h, _ => by
    cases h
    rfl
  | .seq items, _, h, ho => by
    cases h with
    | seq hitems => rw [toJson, itemsToJson_of_carries items hitems (Json.ordered_arr.mp ho)]
  | .map members, _, h, ho => by
    cases h with
    | map hmembers hperm =>
      obtain ⟨ha, hvalues⟩ := Json.ordered_obj.mp ho
      rw [toJson, membersToJson_of_carries members [] hmembers fun m hm => hvalues m (hperm.mem_iff.mp hm)]
      exact congrArg Json.obj (Members.ofPairs_perm hperm ha)
  | .tagged _ value, _, h, ho => by
    cases h with
    | tagged _ h =>
      rw [toJson]
      exact toJson_of_carries value h ho

theorem itemsToJson_of_carries : ∀ (items : List Yaml) {js : List Json}, CarriesItems items js → (∀ j ∈ js, j.Ordered) →
    itemsToJson items = js
  | [], _, h, _ => by
    cases h
    rfl
  | item :: rest, _, h, ho => by
    cases h with
    | cons hitem hrest =>
      obtain ⟨hj, hjs⟩ := List.forall_mem_cons.mp ho
      rw [itemsToJson, toJson_of_carries item hitem hj, itemsToJson_of_carries rest hrest hjs]

theorem membersToJson_of_carries : ∀ (members : List (Yaml × Yaml)) (done : Members Json) {pairs : List (String × Json)},
    CarriesMembers members pairs → (∀ m ∈ pairs, m.2.Ordered) →
      membersToJson members done = pairs.foldl (fun ms m => Members.insert m.1 m.2 ms) done
  | [], _, _, h, _ => by
    cases h
    rfl
  | (_, value) :: rest, done, _, h, ho => by
    cases h with
    | named hkey hvalue hrest =>
      obtain ⟨hj, hjs⟩ := List.forall_mem_cons.mp ho
      rw [membersToJson_named hkey, toJson_of_carries value hvalue hj, membersToJson_of_carries rest _ hrest hjs,
        List.foldl_cons]
    | other hkey hrest => rw [membersToJson_other hkey, membersToJson_of_carries rest done hrest ho]

end

/-! ## Names that come more than once -/

/-- The value of the last member that has the name for its key, but for tags. -/
def LastUnder (name : String) (members : List (Yaml × Yaml)) (value : Yaml) : Prop :=
  ∃ front key behind, members = front ++ (key, value) :: behind ∧ key.untagged = .str name ∧
    ∀ m ∈ behind, m.1.untagged ≠ .str name

theorem lastUnder_cons {last : Yaml} : LastUnder name ((key, value) :: rest) last ↔
    LastUnder name rest last ∨ last = value ∧ key.untagged = .str name ∧ ∀ m ∈ rest, m.1.untagged ≠ .str name := by
  constructor
  · rintro ⟨front, k, behind, heq, hk, hbehind⟩
    cases front with
    | nil =>
      cases heq
      exact .inr ⟨rfl, hk, hbehind⟩
    | cons m front =>
      obtain ⟨-, rfl⟩ := List.cons.inj heq
      exact .inl ⟨front, k, behind, rfl, hk, hbehind⟩
  · rintro (⟨front, k, behind, rfl, hk, hbehind⟩ | ⟨rfl, hk, hbehind⟩)
    · exact ⟨(key, value) :: front, k, behind, rfl, hk, hbehind⟩
    · exact ⟨[], key, rest, rfl, hk, hbehind⟩

/-- Under a name the members have what the last one of that name is converted to; without one, what they had. -/
theorem get?_membersToJson : Members.get? name (membersToJson members done) = some j ↔
    (∃ value, LastUnder name members value ∧ value.toJson = j) ∨
      (∀ m ∈ members, m.1.untagged ≠ .str name) ∧ Members.get? name done = some j := by
  induction members generalizing done with
  | nil => simp [membersToJson, LastUnder]
  | cons m rest ih =>
    obtain ⟨key, value⟩ := m
    simp only [lastUnder_cons, List.forall_mem_cons]
    by_cases hkey : key.untagged = .str name
    · rw [membersToJson_named hkey, ih, Members.get?_insert_self]
      grind
    · have hsame : Members.get? name (membersToJson ((key, value) :: rest) done) = some j ↔
          Members.get? name (membersToJson rest done) = some j := by
        cases htext : key.text? with
        | none => rw [membersToJson_other (text?_eq_none_iff.mp htext)]
        | some other =>
          have hother := text?_eq_some_iff.mp htext
          have hne : other ≠ name := fun he => hkey (he ▸ hother)
          rw [membersToJson_named hother, ih, ih, Members.get?_insert_of_ne hne]
      rw [hsame, ih]
      grind

/-! ## The whole conversion -/

/-- A value that carries a tree is converted to that tree, as the tree's own value is. Every mapping is converted to an
    object that has under each name the conversion of the last member of that name, and nothing else. A number is
    converted to the one that it stands for, and becomes null exactly when it is not finite. -/
theorem conversion_exact :
    (∀ (y : Yaml) (j : Json), j.Ordered → Carries y j → y.toJson = j) ∧ (∀ j : Json, Carries (ofJson j) j) ∧
      (∀ members : List (Yaml × Yaml), ∃ ms, (map members).toJson = .obj ms ∧ Members.Ascending ms ∧
        ∀ name j, Members.get? name ms = some j ↔ ∃ value, LastUnder name members value ∧ value.toJson = j) ∧
      (∀ (n : Num) (f : Number), (num n).toJson = .num f ↔ n = .ofNumber f) ∧
      ∀ n : Num, (num n).toJson = .null ↔ n = .float .nan ∨ ∃ negative, n = .float (.infinite negative) := by
  refine ⟨fun y j ho h => toJson_of_carries y h ho, carries_ofJson, fun members => ?_, fun n f => toJson_num_iff,
    fun n => toJson_num_eq_null⟩
  have ho := toJson_ordered (map members)
  rw [toJson] at ho
  refine ⟨membersToJson members [], by rw [toJson], (Json.ordered_obj.mp ho).1, fun name j => ?_⟩
  rw [get?_membersToJson]
  simp

/-- The least integer that a number can be. -/
def least : Number := .int (-9223372036854775808) (by decide)

/-- A member under a number, tags around a value, inside it and around a key, and the least integer. -/
def noisy : Yaml := .map [
  (.str "b", .tagged "port" (.seq [.tagged "x" .null, .num (.ofNumber least)])),
  (.num (.float .nan), .str "dropped"),
  (.tagged "t" (.str "a"), .map [(.null, .null)])]

/-- The tree in it. -/
def plainTree : Json := .obj [("a", .obj []), ("b", .arr [.null, .num least])]

theorem conversion_exact_noisy :
    plainTree.Ordered ∧ Carries noisy plainTree ∧ noisy.toJson = plainTree ∧
      LastUnder "a" [(.str "a", .null), (.tagged "t" (.str "a"), .bool true)] (.bool true) ∧
      ∃ ms, (map [(.str "a", .null), (.tagged "t" (.str "a"), .bool true)]).toJson = .obj ms ∧
        Members.get? "a" ms = some (.bool true) := by
  obtain ⟨hcarried, -, hmapping, -⟩ := conversion_exact
  have ho : plainTree.Ordered := by decide
  have hlist : Carries (.seq [.tagged "x" .null, .num (.ofNumber least)]) (.arr [.null, .num least]) :=
    .seq (.cons (.tagged "x" .null) (.cons (.num _) .nil))
  have hempty : Carries (.map [(.null, .null)]) (.obj []) := .map (.other (fun _ h => nomatch h) .nil) (.refl [])
  have hcarries : Carries noisy plainTree :=
    .map (.named rfl (.tagged "port" hlist) (.other (fun _ h => nomatch h) (.named rfl hempty .nil))) (.swap ..)
  have hlast : LastUnder "a" [(.str "a", .null), (.tagged "t" (.str "a"), .bool true)] (.bool true) :=
    ⟨[(.str "a", .null)], .tagged "t" (.str "a"), [], rfl, rfl, fun _ h => nomatch h⟩
  obtain ⟨ms, hms, -, hget⟩ := hmapping [(.str "a", .null), (.tagged "t" (.str "a"), .bool true)]
  exact ⟨ho, hcarries, hcarried noisy plainTree ho hcarries, hlast, ms, hms, (hget "a" (.bool true)).mpr ⟨_, hlast, rfl⟩⟩

end DocExpand.Yaml
