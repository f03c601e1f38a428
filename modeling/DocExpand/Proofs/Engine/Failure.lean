/-
  DocExpand.Proofs.Engine.Failure — what a failure leaves, and what it says.

  A verb puts or deletes once, after all that it reads; an import, which deletes before it
  puts, is taken back as a whole. So a verb that fails leaves the document as it was, whoever
  runs it, and its error names no invocation (`clean_verbs`). Applying takes back also what
  the verb wrote when the argument sibling cannot be removed, and names the invocation, once.

  - `execute` fails at one invocation: those before it were carried out, the document is what
    they left, and the error names it (`Stops`).
  - A pass fails so, or its scan fails (`PassFails`).
  - An expansion fails in a pass, or after its last one (`ExpandFails`).

  `fails_iff` says that these are all their failures. Carrying out keeps a document in order
  (`apply_ordered`), so every pass finds an order for its invocations
  (`ExpandFails.ne_unordered`).
-/

import DocExpand.Proofs.Engine.Expansion

namespace DocExpand

variable {α β : Type}

/-! ## Errors that name no invocation -/

/-- The error names an invocation. -/
def Error.wrapped : Error → Bool
  | .invocation .. => true
  | _ => false

theorem Error.rootCause_of_wrapped {cause : Error} (h : cause.wrapped = false) : cause.rootCause = cause := by
  cases cause with
  | invocation identifier place source => cases h
  | _ => rfl

/-- What is refused names no invocation. -/
def Unwrapped (r : Except Error α) : Prop := ∀ cause, r = .error cause → cause.wrapped = false

theorem unwrapped_ok (a : α) : Unwrapped (.ok a : Except Error α) := fun _ h => nomatch h

theorem unwrapped_error {cause : Error} (h : cause.wrapped = false) : Unwrapped (.error cause : Except Error α) := by
  intro x hx
  cases hx
  exact h

theorem Unwrapped.bind {x : Except Error α} {f : α → Except Error β} (hx : Unwrapped x) (hf : ∀ a, Unwrapped (f a)) :
    Unwrapped (x >>= f) := by
  cases x with
  | error cause =>
    have hcause := hx cause rfl
    exact unwrapped_error hcause
  | ok a => exact hf a

namespace Edit

variable {d : Json}

/-- The edit's errors name no invocation. -/
def Direct (x : Edit α) : Prop := ∀ d : Json, Unwrapped (x.runOn d).1

theorem Direct.bind {x : Edit α} {f : α → Edit β} (hx : Direct x) (hf : ∀ a, Direct (f a)) : Direct (x >>= f) := by
  intro d
  have hd := hx d
  rw [runOn_bind]
  rcases hr : x.runOn d with ⟨cause | a, d'⟩
  · rw [hr] at hd
    exact unwrapped_error (hd cause rfl)
  · exact hf a d'

/-- A failure of the edit leaves the document as it was and names no invocation. -/
structure Clean (x : Edit α) : Prop where
  restores : ∀ d cause d', x.runOn d = (.error cause, d') → d' = d
  direct : Direct x

theorem direct_pure (a : α) : Direct (pure a) := fun _ => unwrapped_ok a

theorem direct_get : Direct get := fun d => unwrapped_ok d

theorem direct_lift {r : Except Error α} (h : Unwrapped r) : Direct (liftM r) := by
  intro d
  rw [runOn_lift]
  exact h

theorem clean_throw {cause : Error} (h : cause.wrapped = false) : Clean (throw cause : Edit α) := by
  refine ⟨fun d x d' hx => ?_, fun d => unwrapped_error h⟩
  cases hx
  rfl

theorem Direct.atomically {x : Edit α} (hx : Direct x) : Clean (atomically x) := by
  refine ⟨fun d cause d' h => ?_, fun d => ?_⟩
  · rw [runOn_atomically] at h
    rcases hr : x.runOn d with ⟨y | a, d1⟩
    · rw [hr] at h
      cases h
      rfl
    · rw [hr] at h
      cases h
  · have hd := hx d
    rw [runOn_atomically]
    rcases hr : x.runOn d with ⟨y | a, d1⟩
    · rw [hr] at hd
      exact hd
    · exact unwrapped_ok a

theorem unwrapped_verdict (d : Json) : Unwrapped (verdict d) := by
  intro cause h
  obtain ⟨fault, rfl⟩ := verdict_error h
  rfl

theorem unwrapped_settled {changed : Except Error Json} (h : Unwrapped changed) : Unwrapped (settled d changed).1 := by
  unfold settled
  split
  · exact unwrapped_error (h _ rfl)
  · split
    · exact unwrapped_ok ()
    · rename_i hv
      exact unwrapped_error (unwrapped_verdict _ _ hv)

theorem unwrapped_toJson (value : NewValue) : Unwrapped value.toJson := by
  unfold NewValue.toJson
  split
  · exact unwrapped_ok _
  · exact unwrapped_ok _
  · split
    · exact unwrapped_ok _
    · exact unwrapped_error rfl

theorem clean_put (p : Locator) (value : NewValue) : Clean (put p value) := by
  refine ⟨fun d cause d' h => ?_, fun d => ?_⟩
  · rw [runOn_put] at h
    exact (settled_eq_error.mp h).1
  · rw [runOn_put]
    refine unwrapped_settled ((unwrapped_toJson value).bind fun node => ?_)
    cases Locator.write? p node d with
    | none => exact unwrapped_error rfl
    | some d' => exact unwrapped_ok d'

theorem clean_delete (p : Locator) : Clean (delete p) := by
  refine ⟨fun d cause d' h => ?_, fun d => ?_⟩
  · rw [runOn_delete] at h
    exact (settled_eq_error.mp h).1
  · rw [runOn_delete, removed]
    refine unwrapped_settled ?_
    split
    · exact unwrapped_error rfl
    · cases Locator.remove? p d with
      | none => exact unwrapped_error rfl
      | some d' => exact unwrapped_ok d'

/-- It is enough that the edit does to each document what a clean one does. -/
theorem Clean.of_runOn {x : Edit α} (h : ∀ d, ∃ y : Edit α, Clean y ∧ x.runOn d = y.runOn d) : Clean x := by
  refine ⟨fun d cause d' hx => ?_, fun d => ?_⟩
  · obtain ⟨y, hy, hrun⟩ := h d
    exact hy.restores d cause d' (hrun ▸ hx)
  · obtain ⟨y, hy, hrun⟩ := h d
    rw [hrun]
    exact hy.direct d

end Edit

namespace Engine

open Edit

variable {e : Engine} {d d' left : Json} {cause : Error} {i : Invocation}

/-! ## The verbs -/

theorem unwrapped_targetMembers (target : Locator) (d : Json) : Unwrapped (targetMembers target d) := by
  unfold targetMembers
  split
  · exact unwrapped_error rfl
  · exact unwrapped_ok _
  · exact unwrapped_error rfl

theorem unwrapped_combine (e : Engine) (produces : Kind) (members : Members Json) (imported : Json) :
    Unwrapped (e.combine produces members imported) := by
  unfold combine
  split
  · exact unwrapped_ok _
  · exact unwrapped_error rfl
  · split
    · exact unwrapped_error rfl
    · split
      · exact unwrapped_error rfl
      · exact unwrapped_ok _
  · exact unwrapped_error rfl

theorem direct_load (e : Engine) (branch : Locator) (produces : Kind) (payload : ByteArray) :
    Direct (e.load branch produces payload) := by
  unfold load
  dsimp only
  split
  · exact (clean_throw rfl).direct
  · refine direct_get.bind fun d => (direct_lift (unwrapped_targetMembers _ d)).bind fun members => ?_
    split
    · refine (direct_lift (e.unwrapped_combine _ _ _)).bind fun combined => ?_
      refine (clean_delete branch).direct.bind fun _ => ?_
      split
      · exact (clean_put _ _).direct
      · exact (clean_put _ _).direct
    · exact (clean_throw rfl).direct

theorem Refuses.unwrapped {input : Option Json} (h : Refuses i input cause) : cause.wrapped = false := by
  cases h <;> rfl

theorem clean_edit {arm : Bool → Option Json} {input : Option Json} {x : Deed} (h : x.Told e i arm input) :
    Clean (x.edit e i) := by
  cases x with
  | refuse cause => exact clean_throw h.unwrapped
  | write node => exact clean_put _ _
  | leave arm =>
    rw [Deed.edit]
    split
    · exact clean_delete _
    · exact clean_put _ _
    · exact clean_throw rfl
  | load payload => exact (e.direct_load _ _ payload).atomically

theorem clean_act (e : Engine) (i : Invocation) : Clean (e.act i) :=
  .of_runOn fun d => ⟨_, clean_edit (e.deed_told i (arm? i d) (Locator.resolve i.input d)), runOn_act e i d⟩

/-- What the verbs do for an invocation, whichever its own verb is. -/
def verbs (e : Engine) (i : Invocation) : List (Edit Unit) :=
  [choose i, e.lookup i, e.loadPayload i, join i, asJson i, asYaml i, asBase64 i]

theorem verbs_act {x : Edit Unit} (h : x ∈ e.verbs i) :
    ∃ verb, x = e.act { i with directive := { i.directive with verb } } := by
  simp only [verbs, List.mem_cons, List.not_mem_nil, or_false] at h
  rcases h with rfl | rfl | rfl | rfl | rfl | rfl | rfl
  · exact ⟨.choose, rfl⟩
  · exact ⟨.lookup, rfl⟩
  · exact ⟨.load, rfl⟩
  · exact ⟨.join, rfl⟩
  · exact ⟨.asJson, rfl⟩
  · exact ⟨.asYaml, rfl⟩
  · exact ⟨.asBase64, rfl⟩

theorem clean_verbs (e : Engine) (i : Invocation) : ∀ x ∈ e.verbs i, Clean x := by
  intro x hx
  obtain ⟨verb, rfl⟩ := verbs_act hx
  exact e.clean_act _

theorem act_mem_verbs (e : Engine) (i : Invocation) : e.act i ∈ e.verbs i := by
  unfold act verbs
  cases i.directive.verb <;> simp

/-! ## Applying -/

theorem direct_removeSibling (i : Invocation) : Direct (removeSibling i) := by
  unfold removeSibling
  cases i.argumentSibling? with
  | none => exact direct_pure ()
  | some sibling =>
    refine direct_get.bind fun d => ?_
    split
    · exact (clean_delete sibling).direct
    · exact direct_pure ()

theorem clean_perform (e : Engine) (i : Invocation) : Clean (e.perform i) :=
  ((e.clean_verbs i _ (e.act_mem_verbs i)).direct.bind fun _ => direct_removeSibling i).atomically

/-- An invocation that cannot be applied leaves the document as it was, and is named. -/
theorem apply_fails (h : (e.apply i).runOn d = (.error cause, left)) :
    left = d ∧ ∃ source, cause = e.wrap i source ∧ source.wrapped = false := by
  have hclean := e.clean_perform i
  unfold apply at h
  rw [runOn_adapt] at h
  rcases hr : (e.perform i).runOn d with ⟨source | u, d1⟩
  · have hsource := hclean.direct d source (congrArg Prod.fst hr)
    rw [hr] at h
    cases h
    exact ⟨hclean.restores d source _ hr, source, rfl, hsource⟩
  · rw [hr] at h
    cases h

/-! ## One after the other -/

/-- One of the invocations fails and is named with its cause; those before it were carried out, and the document is what
    they left. -/
def Stops (e : Engine) (is : List Invocation) (d : Json) (cause : Error) (left : Json) : Prop :=
  ∃ before i after source, is = before ++ i :: after ∧ (e.execute before).runOn d = (.ok (), left) ∧
    (e.apply i).runOn left = (.error cause, left) ∧
    cause = .invocation (i.directive.identifier e.config.domain) i.branch source ∧ source.wrapped = false ∧
    cause.rootCause = source

theorem execute_error {is : List Invocation} :
    (e.execute is).runOn d = (.error cause, left) ↔ Stops e is d cause left := by
  constructor
  · intro h
    induction is generalizing d with
    | nil => cases h
    | cons i rest ih =>
      rw [execute, runOn_bind] at h
      rcases hi : (e.apply i).runOn d with ⟨x | u, d1⟩
      · rw [hi] at h
        cases h
        obtain ⟨rfl, source, rfl, hs⟩ := apply_fails hi
        exact ⟨[], i, rest, source, rfl, rfl, hi, rfl, hs, Error.rootCause_of_wrapped hs⟩
      · rw [hi] at h
        obtain ⟨before, j, after, source, rfl, hb, hj, hc⟩ := ih h
        refine ⟨i :: before, j, after, source, rfl, ?_, hj, hc⟩
        rw [execute, runOn_bind, hi]
        exact hb
  · intro h
    obtain ⟨before, i, after, source, his, hb, hi, _⟩ := h
    rw [his, runOn_execute_append, hb]
    simp only [execute, runOn_bind, hi]

/-! ## Documents in order -/

theorem put_ordered {p : Locator} {node : Json} (ho : d.Ordered) (hn : node.Ordered)
    (h : (put p (.tree node)).runOn d = (.ok (), d')) : d'.Ordered :=
  Locator.write?_ordered ho hn (put_written rfl h)

theorem delete_ordered {p : Locator} (ho : d.Ordered) (h : (delete p).runOn d = (.ok (), d')) : d'.Ordered :=
  Locator.remove?_ordered ho (delete_removed h)

theorem load_ordered {host : Locator} {key : String} {produces : Kind} {payload : ByteArray} (ho : d.Ordered)
    (h : (e.load (host ++ [.key key]) produces payload).runOn d = (.ok (), d')) : d'.Ordered := by
  obtain ⟨ms, hr⟩ := load_target h
  have hms : (Json.obj (Members.erase key ms)).Ordered := (Locator.resolve_ordered ho hr).erase key
  rw [runOn_load produces payload hr] at h
  split at h
  · cases h
  · cases hi : Json.decode payload with
    | none =>
      rw [hi] at h
      cases h
    | some imported =>
      cases hc : e.combine produces (Members.erase key ms) imported with
      | error x =>
        simp only [hi, hc] at h
        cases h
      | ok combined =>
        simp only [hi, hc] at h
        rcases hdelete : (delete (host ++ [.key key])).runOn d with ⟨x | u, d1⟩
        · rw [hdelete] at h
          cases h
        · rw [hdelete] at h
          exact put_ordered (delete_ordered ho hdelete) (combine_ordered hms (Json.decode_ordered hi) hc) h

/-- What a verb leaves of an ordered document is ordered. -/
theorem act_ordered {key : String} (hb : i.branch = i.host ++ [.key key]) (ho : d.Ordered)
    (h : (e.act i).runOn d = (.ok (), d')) : d'.Ordered := by
  have htold := e.deed_told i (arm? i d) (Locator.resolve i.input d)
  rw [runOn_act] at h
  cases hdeed : e.deed i (arm? i d) (Locator.resolve i.input d) with
  | refuse cause =>
    rw [hdeed] at h
    cases h
  | write node =>
    rw [hdeed] at h htold
    refine put_ordered ho ?_ h
    cases htold with
    | arm _ harm => exact Locator.resolve_ordered ho harm
    | parameter hf => exact parameter?_ordered hf
    | text _ => trivial
  | leave arm =>
    rw [hdeed, Deed.edit] at h
    split at h
    · exact delete_ordered ho h
    · have hnull : Json.null.Ordered := trivial
      exact put_ordered ho hnull h
    · cases h
  | load payload =>
    rw [hdeed, Deed.edit, atomically_ok, hb] at h
    exact load_ordered ho h

theorem apply_ordered {key : String} (hb : i.branch = i.host ++ [.key key]) (ho : d.Ordered)
    (h : (e.apply i).runOn d = (.ok (), d')) : d'.Ordered := by
  obtain ⟨d1, hact, hremove⟩ := (apply_performed i).mp h
  have ho1 := act_ordered hb ho hact
  unfold removeSibling at hremove
  split at hremove
  · rw [runOn_bind, runOn_get] at hremove
    simp only at hremove
    split at hremove
    · exact delete_ordered ho1 hremove
    · cases hremove
      exact ho1
  · cases hremove
    exact ho1

theorem execute_ordered {is : List Invocation} (hb : ∀ i ∈ is, ∃ key, i.branch = i.host ++ [.key key]) (ho : d.Ordered)
    (h : (e.execute is).runOn d = (.ok (), d')) : d'.Ordered := by
  induction is generalizing d with
  | nil =>
    cases h
    exact ho
  | cons i rest ih =>
    rw [execute, runOn_bind] at h
    rcases hi : (e.apply i).runOn d with ⟨x | u, d1⟩
    · rw [hi] at h
      cases h
    · rw [hi] at h
      obtain ⟨key, hkey⟩ := hb i (List.mem_cons_self ..)
      exact ih (fun j hj => hb j (List.mem_cons_of_mem _ hj)) (apply_ordered hkey ho hi) h

theorem runPass_ordered {count : Nat} (ho : d.Ordered) (h : e.runPass.runOn d = (.ok count, d')) : d'.Ordered := by
  obtain ⟨found, order, hscan, hs, hx, -⟩ := runPass_ok.mp h
  refine execute_ordered (fun i hi => ?_) ho hx
  obtain ⟨host, target, v, key, argument, -, -, rfl⟩ := (mem_scan hscan i).mp ((Invocation.mem_schedule hs).mp hi)
  exact ⟨key, by rw [bind_host, bind_branch]⟩

theorem Worked.ordered {n : Nat} (h : e.Worked n d d') (ho : d.Ordered) : d'.Ordered := by
  induction h with
  | start _ => exact ho
  | pass hrun _ ih => exact ih (runPass_ordered ho hrun)

/-! ## Passes -/

/-- The faults of a scan: a shaped key that names no directive, or a second invocation in one object. -/
inductive ScanFault : Error → Prop
  | unknown (key : String) (place : Locator) : ScanFault (.unknownDirective key place)
  | duplicate (place : Locator) (first second : String) : ScanFault (.duplicateDirective place first second)

theorem scan_fault (h : e.scan d = .error cause) : ScanFault cause := by
  obtain ⟨p, members, -, hi⟩ := scan_error h
  rw [invoked_eq] at hi
  unfold invokedBy at hi
  split at hi
  · cases hi
  · split at hi
    · cases hi
      exact .unknown ..
    · cases hi
  · split at hi
    · cases hi
      exact .unknown ..
    · cases hi
      exact .unknown ..
    · cases hi
      exact .duplicate ..

theorem ScanFault.unwrapped (h : ScanFault cause) : cause.wrapped = false := by cases h <;> rfl

theorem ScanFault.ne_unordered (h : ScanFault cause) : cause ≠ .unordered := by
  cases h <;> exact fun h => nomatch h

/-- How a pass fails: its scan does, which names no invocation, or one of the invocations found. Only in a tree that is
    no document, as it is not in order, can they have no order. -/
inductive PassFails (e : Engine) (d : Json) : Error → Json → Prop
  | scan {cause : Error} : e.scan d = .error cause → cause.wrapped = false → PassFails e d cause d
  | unordered {found : List Invocation} : ¬ d.Ordered → e.scan d = .ok found → Invocation.schedule found = none →
    PassFails e d .unordered d
  | turn {found order : List Invocation} {cause : Error} {left : Json} :
    e.scan d = .ok found → Invocation.schedule found = some order → Stops e order d cause left → PassFails e d cause left

theorem runPass_error : e.runPass.runOn d = (.error cause, left) ↔ PassFails e d cause left := by
  constructor
  · intro h
    rw [runOn_runPass] at h
    cases hscan : e.scan d with
    | error x =>
      rw [hscan] at h
      cases h
      exact .scan hscan (scan_fault hscan).unwrapped
    | ok found =>
      cases hs : Invocation.schedule found with
      | none =>
        simp only [hscan, hs] at h
        cases h
        refine .unordered (fun ho => ?_) hscan hs
        obtain ⟨order, horder⟩ := exists_schedule ho hscan
        rw [hs] at horder
        cases horder
      | some order =>
        simp only [hscan, hs] at h
        rcases hx : (e.execute order).runOn d with ⟨x | u, d1⟩
        · rw [hx] at h
          cases h
          exact .turn hscan hs (execute_error.mp hx)
        · rw [hx] at h
          cases h
  · intro h
    cases h with
    | scan hscan _ => rw [runOn_runPass, hscan]
    | unordered _ hscan hs => simp only [runOn_runPass, hscan, hs]
    | turn hscan hs hstop => rw [runPass_eq hscan hs, execute_error.mpr hstop]

theorem PassFails.ne_unordered (h : PassFails e d cause left) (ho : d.Ordered) : cause ≠ .unordered := by
  cases h with
  | scan hscan _ => exact (scan_fault hscan).ne_unordered
  | unordered hnot _ _ => exact absurd ho hnot
  | turn _ _ hstop =>
    obtain ⟨-, -, -, -, -, -, -, rfl, -, -⟩ := hstop
    exact fun h => nomatch h

/-- How an expansion fails, after some passes that worked: in the next pass, in the scan after the last one, or because
    that scan still finds something. -/
inductive ExpandFails (e : Engine) (d : Json) : Error → Json → Prop
  | pass {n : Nat} {now : Json} {cause : Error} {left : Json} :
    n < e.config.maxPasses → e.Worked n d now → PassFails e now cause left → ExpandFails e d cause left
  | scan {left : Json} {cause : Error} :
    e.Worked e.config.maxPasses d left → e.scan left = .error cause → cause.wrapped = false → ExpandFails e d cause left
  | limit {left : Json} {found : List Invocation} :
    e.Worked e.config.maxPasses d left → e.scan left = .ok found → found ≠ [] →
      ExpandFails e d (.passLimitExceeded e.config.maxPasses) left

theorem expand_error : e.expand.runOn d = (.error cause, left) ↔ ExpandFails e d cause left := by
  rw [expand, expandFrom_error]
  constructor
  · intro h
    rcases h with ⟨n, now, hn, hw, hrun⟩ | ⟨hw, hs | ⟨found, hs, hne, rfl⟩⟩
    · exact .pass hn hw (runPass_error.mp hrun)
    · exact .scan hw hs (scan_fault hs).unwrapped
    · exact .limit hw hs hne
  · intro h
    cases h with
    | pass hn hw hfail => exact .inl ⟨_, _, hn, hw, runPass_error.mpr hfail⟩
    | scan hw hs _ => exact .inr ⟨hw, .inl hs⟩
    | limit hw hs hne => exact .inr ⟨hw, .inr ⟨_, hs, hne, rfl⟩⟩

/-- An ordered document is never left without an order of its invocations, in no pass. -/
theorem ExpandFails.ne_unordered (h : ExpandFails e d cause left) (ho : d.Ordered) : cause ≠ .unordered := by
  cases h with
  | pass _ hw hfail => exact hfail.ne_unordered (hw.ordered ho)
  | scan _ hscan _ => exact (scan_fault hscan).ne_unordered
  | limit _ _ _ => exact fun h => nomatch h

/-- All the failures: of any list of invocations, of a pass, of an expansion, and of a verb run by itself. A document in
    order never fails for want of an order. -/
theorem fails_iff (e : Engine) (d : Json) (cause : Error) (left : Json) :
    (∀ is, (e.execute is).runOn d = (.error cause, left) ↔ Stops e is d cause left) ∧
      (e.runPass.runOn d = (.error cause, left) ↔ PassFails e d cause left) ∧
      (e.expand.runOn d = (.error cause, left) ↔ ExpandFails e d cause left) ∧
      (d.Ordered → ExpandFails e d cause left → cause ≠ .unordered) ∧
      ∀ i, ∀ x ∈ e.verbs i, x.runOn d = (.error cause, left) → left = d :=
  ⟨fun _ => execute_error, runPass_error, expand_error, fun ho h => h.ne_unordered ho,
    fun i x hx h => (e.clean_verbs i x hx).restores d cause left h⟩

/-- A string directive, and a look-up of a parameter that there is not. -/
def halted : Json := .obj [
  ("a", .obj [("kubegen.String.AsJSON", .str "x")]),
  ("b", .obj [("kubegen.String.Lookup", .str "p")])]

def haltedText : Invocation :=
  let branch : Locator := [.key "a", .key "kubegen.String.AsJSON"]
  { directive := ⟨.string, .d, .asJson⟩, branch, input := branch }

def haltedLookup : Invocation :=
  let branch : Locator := [.key "b", .key "kubegen.String.Lookup"]
  { directive := ⟨.string, .b, .lookup⟩, branch, input := branch }

/-- What was done before the failing look-up stays; run by itself, the look-up leaves the document as it was. -/
theorem fails_iff_halted :
    Stops plain [haltedText, haltedLookup] halted
        (.invocation "kubegen.String.Lookup" haltedLookup.branch (.undefinedParameter "p"))
        (.obj [("a", .str "\"x\""), ("b", .obj [("kubegen.String.Lookup", .str "p")])]) ∧
      ∃ left, (plain.lookup haltedLookup).runOn halted = (.error (.undefinedParameter "p"), left) ∧ left = halted := by
  constructor
  · exact ((fails_iff plain halted _ _).1 [haltedText, haltedLookup]).mp (by rfl)
  · have hrun : (plain.lookup haltedLookup).runOn halted = (.error (.undefinedParameter "p"), halted) := by rfl
    have hmem : plain.lookup haltedLookup ∈ plain.verbs haltedLookup := by simp [verbs]
    exact ⟨halted, hrun, (fails_iff plain halted _ halted).2.2.2.2 haltedLookup _ hmem hrun⟩

end Engine

end DocExpand
