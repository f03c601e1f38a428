/-
  DocExpand.Proofs.Directive — the keys that name directives.

  A shaped key ends in a dot and a word of letters and digits (`shaped_ends`). A key is parsed
  to a directive of the catalogue exactly if it is the directive's identifier
  (`parse?_eq_some_iff`), whatever the domain is; such a key is shaped (`shaped_of_parse`).
  Without a dot a domain is all of a shaped key up to the first one (`domain_of_shaped`), so the
  domains of valid configurations have no shaped key in common (`identifiers_exact`).
-/

import DocExpand.Config
import DocExpand.Directive

namespace DocExpand.Directive

variable {key domain : String} {d : Directive}

/-! ## Shaped keys -/

theorem after?_eq_some {lead cs rest : List Char} (h : after? lead cs = some rest) : cs = lead ++ rest := by
  induction lead generalizing cs with
  | nil =>
    cases h
    rfl
  | cons l lead ih =>
    cases cs with
    | nil => cases h
    | cons c cs =>
      rw [after?] at h
      split at h
      · rename_i hl
        rw [hl, ih h, List.cons_append]
      · cases h

theorem after?_append (lead rest : List Char) : after? lead (lead ++ rest) = some rest := by
  induction lead with
  | nil => rfl
  | cons l lead ih => rw [List.cons_append, after?, if_pos rfl, ih]

/-- A key that falls into parts is the parts behind the domain. -/
theorem split?_eq_some {kind verb : String} (h : split? key domain = some (kind, verb)) :
    key.toList = domain.toList ++ '.' :: (kind.toList ++ '.' :: verb.toList) := by
  unfold split? at h
  obtain ⟨rest, hrest, h⟩ := Option.bind_eq_some_iff.mp h
  obtain ⟨word, hword, h⟩ := Option.bind_eq_some_iff.mp h
  cases h
  have hdrop : rest.dropWhile (· ≠ '.') = '.' :: word := after?_eq_some hword
  rw [after?_eq_some hrest, String.toList_ofList, String.toList_ofList, ← hdrop, List.takeWhile_append_dropWhile,
    List.append_assoc, List.singleton_append]

theorem isShaped_iff : isShaped key domain = true ↔
    ∃ kind verb, split? key domain = some (kind, verb) ∧ (Kind.ofName? kind).isSome = true ∧
      isVerbWord verb.toList = true := by
  unfold isShaped
  cases split? key domain with
  | none => exact ⟨fun h => (nomatch h), fun ⟨_, _, h, _⟩ => (nomatch h)⟩
  | some parts =>
    refine ⟨fun h => ⟨parts.1, parts.2, rfl, Bool.and_eq_true_iff.mp h⟩, fun ⟨_, _, hs, h⟩ => ?_⟩
    cases hs
    exact Bool.and_eq_true_iff.mpr h

/-- A shaped key ends in a dot and letters and digits. -/
theorem shaped_ends (h : isShaped key domain = true) :
    ∃ front word : List Char, key.toList = front ++ '.' :: word ∧ ∀ c ∈ word, c.isAlphanum = true := by
  obtain ⟨kind, verb, hs, -, hv⟩ := isShaped_iff.mp h
  refine ⟨domain.toList ++ '.' :: kind.toList, verb.toList, ?_, ?_⟩
  · rw [split?_eq_some hs, List.append_assoc, List.cons_append]
  · cases hword : verb.toList with
    | nil => exact fun _ hc => nomatch hc
    | cons c cs =>
      rw [hword, isVerbWord, Bool.and_eq_true] at hv
      exact List.all_eq_true.mp hv.2

theorem name_isVerbWord (v : Verb) : isVerbWord v.name.toList = true := by cases v <;> decide +kernel

/-- The identifier of a directive is shaped like one. -/
theorem shaped_of_parse (h : parse? key domain = some d) : isShaped key domain = true := by
  obtain ⟨⟨kindName, verbName⟩, hs, h⟩ := Option.bind_eq_some_iff.mp h
  obtain ⟨kind, hk, h⟩ := Option.bind_eq_some_iff.mp h
  have hname : d.verb.name = verbName := by
    have := List.find?_some h
    simp only [decide_eq_true_eq] at this
    exact this.2
  refine isShaped_iff.mpr ⟨kindName, verbName, hs, ?_, hname ▸ name_isVerbWord d.verb⟩
  rw [hk]
  rfl

/-! ## Identifiers -/

/-- A key that names a directive is the directive's identifier. -/
theorem identifier_of_parse (h : parse? key domain = some d) : d.identifier domain = key := by
  obtain ⟨⟨kindName, verbName⟩, hsplit, h⟩ := Option.bind_eq_some_iff.mp h
  obtain ⟨kind, hkind, h⟩ := Option.bind_eq_some_iff.mp h
  have hname : kind.name = kindName := by simpa using List.find?_some hkind
  obtain ⟨hproduces, hverb⟩ : d.produces = kind ∧ d.verb.name = verbName := by simpa using List.find?_some h
  rw [identifier, hproduces, hname, hverb]
  apply String.toList_inj.mp
  rw [split?_eq_some hsplit]
  simp [String.toList_append]

theorem mem_registry_of_parse (h : parse? key domain = some d) : d ∈ registry := by
  obtain ⟨_, -, h⟩ := Option.bind_eq_some_iff.mp h
  obtain ⟨_, -, h⟩ := Option.bind_eq_some_iff.mp h
  exact List.mem_of_find?_eq_some h

theorem name_no_dot (k : Kind) : ∀ c ∈ k.name.toList, c ≠ '.' := by
  have hall : k.name.toList.all (fun c => decide (c ≠ '.')) = true := by cases k <;> decide +kernel
  exact fun c hc => of_decide_eq_true (List.all_eq_true.mp hall c hc)

-- The domain is taken off whole, so its own dots do not matter; the name of a kind has none.
theorem split?_identifier (d : Directive) (domain : String) :
    split? (d.identifier domain) domain = some (d.produces.name, d.verb.name) := by
  have hkey : (d.identifier domain).toList =
      (domain.toList ++ ['.']) ++ (d.produces.name.toList ++ '.' :: d.verb.name.toList) := by
    rw [identifier]
    simp [String.toList_append]
  have hdot : ∀ c ∈ d.produces.name.toList, decide (c ≠ '.') = true :=
    fun c hc => decide_eq_true (name_no_dot d.produces c hc)
  have hkind : (d.produces.name.toList ++ '.' :: d.verb.name.toList).takeWhile (· ≠ '.') = d.produces.name.toList := by
    rw [List.takeWhile_append_of_pos hdot]
    simp
  have hverb : (d.produces.name.toList ++ '.' :: d.verb.name.toList).dropWhile (· ≠ '.') = '.' :: d.verb.name.toList := by
    rw [List.dropWhile_append_of_pos hdot]
    simp
  have hword : after? ['.'] ('.' :: d.verb.name.toList) = some d.verb.name.toList := after?_append ['.'] _
  unfold split?
  simp only [hkey, after?_append, Option.bind_eq_bind, Option.bind_some, hkind, hverb, hword, String.ofList_toList]

theorem parse?_identifier (h : d ∈ registry) (domain : String) : parse? (d.identifier domain) domain = some d := by
  have hfound : ∀ d ∈ registry, ((Kind.ofName? d.produces.name).bind fun kind =>
      registry.find? fun x => x.produces = kind ∧ x.verb.name = d.verb.name) = some d := by decide +kernel
  unfold parse?
  rw [split?_identifier]
  exact hfound d h

/-- A key names the directive that it is the identifier of. -/
theorem parse?_eq_some_iff : parse? key domain = some d ↔ d ∈ registry ∧ d.identifier domain = key := by
  constructor
  · exact fun h => ⟨mem_registry_of_parse h, identifier_of_parse h⟩
  · rintro ⟨hd, rfl⟩
    exact parse?_identifier hd domain

theorem identifier_injective {d' : Directive} (hd : d ∈ registry) (hd' : d' ∈ registry)
    (h : d.identifier domain = d'.identifier domain) : d = d' := by
  have hparse := parse?_identifier hd domain
  rw [h, parse?_identifier hd' domain] at hparse
  exact (Option.some.inj hparse).symm

theorem parse?_eq_none_iff : parse? key domain = none ↔ ∀ d ∈ registry, d.identifier domain ≠ key := by
  rw [Option.eq_none_iff_forall_ne_some]
  refine forall_congr' fun d => ?_
  rw [Ne, parse?_eq_some_iff, not_and]

/-! ## The catalogue -/

theorem choose_mem (h : d ∈ registry) (hv : d.verb = .choose) : d = ⟨.null, .a, .choose⟩ := by
  revert d
  decide

/-- What the imports of the catalogue produce. -/
theorem load_produces (h : parse? key domain = some d) (hv : d.verb = .load) :
    d.produces = .object ∨ d.produces = .array := by
  have hall : ∀ w ∈ registry, w.verb = .load → w.produces = .object ∨ w.produces = .array := by decide
  exact hall d (mem_registry_of_parse h) hv

/-! ## Domains -/

/-- A shaped key begins with its domain and a dot, which is the first dot where the domain has none. -/
theorem domain_of_shaped (hdot : '.' ∉ domain.toList) (h : isShaped key domain = true) :
    key.toList.takeWhile (· ≠ '.') = domain.toList := by
  obtain ⟨kind, verb, hs, -⟩ := isShaped_iff.mp h
  have hdomain : ∀ c ∈ domain.toList, decide (c ≠ '.') = true :=
    fun c hc => decide_eq_true (ne_of_mem_of_not_mem hc hdot)
  rw [split?_eq_some hs, List.takeWhile_append_of_pos hdomain]
  simp

theorem domain_unique {other : String} (hdot : '.' ∉ domain.toList) (hother : '.' ∉ other.toList)
    (h : isShaped key domain = true) (h' : isShaped key other = true) : domain = other := by
  apply String.toList_inj.mp
  rw [← domain_of_shaped hdot h, ← domain_of_shaped hother h']

theorem no_dot_of_fault? {c : Config} (h : c.fault? = none) : '.' ∉ c.domain.toList := by
  unfold Config.fault? at h
  split at h
  · cases h
  · rename_i hdomain
    rw [Bool.or_eq_true, not_or] at hdomain
    exact fun hc => hdomain.2 (List.contains_iff_mem.mpr hc)

/-- Under every domain a key is parsed to the directive that it is the identifier of, identifiers are shaped and all
    different; and no key is shaped under two domains without dots, so none under two valid configurations that have
    different domains. -/
theorem identifiers_exact (key domain : String) :
    (∀ d, parse? key domain = some d ↔ d ∈ registry ∧ key = d.identifier domain) ∧
      (∀ d ∈ registry, isShaped (d.identifier domain) domain = true) ∧
      (∀ d ∈ registry, ∀ d' ∈ registry, d.identifier domain = d'.identifier domain → d = d') ∧
      (∀ other : String, '.' ∉ domain.toList → '.' ∉ other.toList →
        isShaped key domain = true → isShaped key other = true → domain = other) ∧
      ∀ c c' : Config, c.fault? = none → c'.fault? = none → c.domain ≠ c'.domain →
        isShaped key c.domain = true → isShaped key c'.domain = false := by
  refine ⟨fun d => ?_, fun d hd => shaped_of_parse (parse?_identifier hd domain),
    fun d hd d' hd' => identifier_injective hd hd', fun other hdot hother => domain_unique hdot hother,
    fun c c' hc hc' hne h => ?_⟩
  · rw [parse?_eq_some_iff, eq_comm]
  · refine Bool.eq_false_iff.mpr fun h' => hne ?_
    exact domain_unique (no_dot_of_fault? hc) (no_dot_of_fault? hc') h h'

/-- A domain that is the name of a kind, and one that it is only the beginning of. -/
theorem identifiers_exact_kinds :
    ⟨.null, .a, .choose⟩ ∈ registry ∧ parse? "Null.Null.If" "Null" = some ⟨.null, .a, .choose⟩ ∧
      isShaped "Null.Null.If" "Null" = true ∧ isShaped "Null.Null.If" "Nul" = false ∧
      isShaped "Null.Null.If" "" = false := by
  obtain ⟨hparse, hshaped, -, -, hvalid⟩ := identifiers_exact "Null.Null.If" "Null"
  have hmem : ⟨.null, .a, .choose⟩ ∈ registry := by decide
  have hkey : "Null.Null.If" = identifier ⟨.null, .a, .choose⟩ "Null" := by decide +kernel
  have hnull : isShaped "Null.Null.If" "Null" = true := by
    have := hshaped _ hmem
    rwa [← hkey] at this
  have hnul := hvalid { domain := "Null" } { domain := "Nul" } (by decide +kernel) (by decide +kernel) (by decide) hnull
  refine ⟨hmem, (hparse _).mpr ⟨hmem, hkey⟩, hnull, hnul, ?_⟩
  obtain ⟨-, -, -, hunique, -⟩ := identifiers_exact "Null.Null.If" "Null"
  exact Bool.eq_false_iff.mpr fun h => absurd (hunique "" (by decide) (by decide) hnull h) (by decide)

end DocExpand.Directive
