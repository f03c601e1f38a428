/-
  DocExpand.Proofs.Engine.Pass — a pass computes the value of the document.

  When the turn of an invocation comes, the document is the evaluation of the scanned one
  with the invocations before it carried out, and applying it carries out one more
  (`Course.step`), in every order that a pass can take. At the end all are carried out, which
  is the value (`runPass_value`).

  That needs the invocations to be `Apart`, and a pass fails where an import's own member
  has gone before its turn. Where the key of one invocation is the key of a member with the
  suffix, that member's invocation is put behind the other one, although it stands beneath it.
-/

import DocExpand.Proofs.Engine.Turns
import DocExpand.Proofs.Engine.Value

namespace DocExpand.Engine

open Edit

variable {e : Engine} {doc d d' : Json} {found before after : List Invocation} {i : Invocation}

/-- The places of some invocations. -/
def hosts (is : List Invocation) (p : Locator) : Bool := is.any fun i => i.host = p

theorem hosts_eq_true {p : Locator} : hosts before p = true ↔ ∃ a ∈ before, a.host = p := by simp [hosts]

theorem hosts_eq_false {p : Locator} : hosts before p = false ↔ ∀ a ∈ before, a.host ≠ p := by simp [hosts]

theorem hosts_snoc_of_ne {p : Locator} (h : p ≠ i.host) : hosts before p = hosts (before ++ [i]) p := by
  simp [hosts, h.symm]

theorem hosts_snoc_self : hosts (before ++ [i]) i.host = true := by simp [hosts]

/-! ## Carrying out -/

section Carry

variable {done : Locator → Bool} {at_ q : Locator} {v : Directive} {k key : String} {written target opened : Json}
  {ms ps members : Members Json} {items : List Json} {n : Nat}

theorem carry_done (hdone : done at_ = true) (ht : e.host? target = some (v, key, written)) (beside : Option Slot) :
    e.carry true done at_ beside target (.obj ms) =
      (e.outcome true v at_ key written (argumentOf key written beside ms) ms).filter (fits at_) := by
  rw [carry, hdone, ht]
  rfl

theorem leave_done (hdone : done at_ = true) (ht : e.host? target = some (v, key, written)) (slot : Slot) :
    e.leave done at_ k target (Members.put k slot ps) = e.become written k slot ps := by
  have htakes : e.takes target = decide (written = .bool true) := by rw [takes, ht, Option.any_some]
  rw [leave, become, hdone, htakes]
  simp

theorem stepChild_member (hc : Members.get? k ps = some opened) :
    e.stepChild true done q (.obj members) (.key k) target some (.obj ps) =
      (e.carry true done (q ++ [.key k]) (e.beside k members ps) target opened).map fun slot =>
        .obj (e.leave done (q ++ [.key k]) k target (Members.put k slot ps)) := by
  simp only [stepChild, stepMembers, hc, Option.bind_some, Option.map_map]
  rfl

theorem stepChild_item {written : List Json} (hc : items[n]? = some opened) :
    e.stepChild true done q (.arr written) (.index n) target some (.arr items) =
      (e.carry true done (q ++ [.index n]) none target opened).map fun slot => .arr (items.set n (slot.getD .null)) := by
  simp only [stepChild, stepItems, hc, Option.bind_some, Option.map_map]
  rfl

theorem sibling_eq_beside (hr : Locator.resolve q doc = some (.obj members)) :
    e.sibling doc q k ps = e.beside k members ps := by
  rw [sibling, beside, Locator.resolve_snoc, hr]
  rfl

/-- With the root not carried out, a document's evaluation is the opened document. -/
theorem evaluate_open (hroot : done Locator.root = false) : e.evaluate true done doc = e.open? true done Locator.root doc := by
  rw [evaluate]
  cases e.open? true done Locator.root doc with
  | none => rfl
  | some opened =>
    rw [Option.bind_some, carry_pending hroot]
    rfl

end Carry

theorem pending_above (hc : Clear before i.host) {p : Locator} (hp : p <+: i.host) : hosts before p = false :=
  hosts_eq_false.mpr fun a ha hap => hc.above a ha (hap ▸ hp)

theorem open?_root_snoc (hroot : i.host = []) :
    e.open? true (hosts before) Locator.root doc = e.open? true (hosts (before ++ [i])) Locator.root doc :=
  open?_congr doc fun _ _ hne _ _ => hosts_snoc_of_ne (by rw [hroot]; exact hne)

namespace Scanned

variable (h : e.Scanned doc found)

include h

/-- No consumer done before took a place on the way to a clear one. -/
theorem untaken (hsub : ∀ a ∈ before, a ∈ found) {place : Locator} {target : Json} (hv : e.Visited doc place target)
    (hc : Clear before place) {p : Locator} {t : Segment} {x : Json} (hp : p ++ [t] <+: place) (hx : e.Visited doc p x) :
    Untaken e (hosts before) p x t := by
  intro members hxm m hm ht hdone
  subst hxm ht
  refine Bool.eq_false_iff.mpr fun htakes => ?_
  obtain ⟨a, ha, hahost⟩ := hosts_eq_true.mp hdone
  obtain ⟨q, target', v, key, written, hv', ht', rfl⟩ := h.mem_iff.mp (hsub a ha)
  rw [bind_host] at hahost
  subst hahost
  -- the consumer is the member itself
  have hms := (hx.resolve h.ordered).2
  have hmember : Locator.resolve (p ++ [.key m.1]) doc = some m.2 := by
    rw [Locator.resolve_snoc, (hx.resolve h.ordered).1]
    exact Members.get?_of_mem (Json.ordered_obj.mp hms).1 hm
  rw [(hv'.resolve h.ordered).1] at hmember
  cases hmember
  have hw : written = .bool true := by
    rw [takes, ht'] at htakes
    simpa using htakes
  obtain ⟨r, rfl⟩ := hp
  obtain ⟨y, hy, -⟩ := hv.split
  refine hc.taken _ ha (p ++ [.key (e.siblingKey m.1)]) ?_ (List.prefix_append ..)
  rw [bind_argumentSibling?, if_pos hw, argumentSibling?_member, (hy.resolve h.ordered).1]
  rfl

/-- Evaluation with one invocation more, at the root. -/
theorem step_root (hroot : i.host = []) (hc : Clear before i.host) {v : Directive} {key : String} {written target : Json}
    {ms : Members Json} (hv : e.Visited doc i.host target) (ht : e.host? target = some (v, key, written))
    (hready : Ready e doc i v key written ms d) (hd : d.Sound) (hnow : e.evaluate true (hosts before) doc = some d) :
    (e.apply i).runOn d = (.ok (), d') ↔ e.evaluate true (hosts (before ++ [i])) doc = some d' := by
  have hpend : hosts before Locator.root = false := pending_above hc List.nil_prefix
  have hdone : hosts (before ++ [i]) Locator.root = true := by
    rw [Locator.root, ← hroot]
    exact hosts_snoc_self
  have hthere := hready.there
  rw [hroot] at hthere hv
  cases hv
  cases hthere
  rw [evaluate_open hpend] at hnow
  have hbound := hready.bound
  rw [hroot] at hbound
  rw [evaluate, ← open?_root_snoc hroot, hnow, Option.bind_some, carry, hdone, hbound, apply_root hd, argument_root]
  simp only [if_true, ht, membersOf, Option.bind_eq_some_iff, Option.filter_eq_some_iff, id, and_assoc]
  rfl

/-- Evaluation with one invocation more, beneath the root, is one change of the parent of its place. -/
theorem evaluate_snoc {q : Locator} {s : Segment} (hhost : i.host = q ++ [s]) (hsub : ∀ a ∈ before, a ∈ found)
    (hc : Clear before i.host) {parent target : Json} (hp : e.Visited doc q parent) (hv : e.Visited parent [s] target) :
    e.evaluate true (hosts (before ++ [i])) doc = (e.evaluate true (hosts before) doc).bind
      (Locator.modify? (e.stepChild true (hosts (before ++ [i])) q parent s target some) q) := by
  have hpend : hosts before Locator.root = false := pending_above hc List.nil_prefix
  have hne : Locator.root ≠ i.host := by
    rw [hhost]
    simp [Locator.root]
  have hpend' : hosts (before ++ [i]) Locator.root = false := by
    rw [← hosts_snoc_of_ne hne]
    exact hpend
  rw [evaluate_open hpend, evaluate_open hpend']
  refine open?_step h.suffix h.ordered hp hv ?_ ?_ ?_
  · intro p hne
    exact hosts_snoc_of_ne (by rwa [hhost])
  · intro p _ hpq
    exact pending_above hc (by rwa [hhost])
  · intro p t x hpq hx
    rw [← hhost] at hpq
    exact h.untaken hsub (hhost ▸ hp.trans hv) hc hpq hx

/-- Evaluation with one invocation more, at a member or an item. -/
theorem step_child {q : Locator} {s : Segment} (hhost : i.host = q ++ [s]) (hsub : ∀ a ∈ before, a ∈ found)
    (hc : Clear before i.host) {v : Directive} {key : String} {written target : Json} {ms : Members Json}
    (hv : e.Visited doc i.host target) (ht : e.host? target = some (v, key, written))
    (hready : Ready e doc i v key written ms d) (hd : d.Sound) (hnow : e.evaluate true (hosts before) doc = some d) :
    (e.apply i).runOn d = (.ok (), d') ↔ e.evaluate true (hosts (before ++ [i])) doc = some d' := by
  have hdone : hosts (before ++ [i]) (q ++ [s]) = true := hhost ▸ hosts_snoc_self
  obtain ⟨hbound, hthere, habsent⟩ := hready
  rw [hhost] at hv hthere hbound
  obtain ⟨parent, hp, hchild⟩ := hv.split
  rw [h.evaluate_snoc hhost hsub hc hp hchild, hnow, Option.bind_some]
  generalize hosts (before ++ [i]) = done at hdone ⊢
  rw [hbound]
  rw [Locator.walk_snoc] at hthere
  obtain ⟨now, hn, hstep⟩ := Option.bind_eq_some_iff.mp hthere
  have hr := Locator.resolve_of_walk hn
  rw [Locator.modify?_eq_replace? hr]
  cases hchild with
  | @item written n _ _ _ hi hx =>
    cases hx
    cases now with
    | null | bool _ | num _ | str _ | obj _ => cases hstep
    | arr items =>
      rw [apply_item hd hr hstep, argument_item hr hstep, stepChild_item hstep, carry_done hdone ht]
      simp only [Option.bind_eq_some_iff, Option.map_eq_some_iff, Option.filter_eq_some_iff]
      constructor
      · intro hx
        obtain ⟨slot, ho, hf, hrep⟩ := hx
        exact ⟨_, ⟨slot, ⟨ho, hf⟩, rfl⟩, hrep⟩
      · intro hx
        obtain ⟨_, ⟨slot, ⟨ho, hf⟩, rfl⟩, hrep⟩ := hx
        exact ⟨slot, ho, hf, hrep⟩
  | @member members k _ _ _ hm ha hx =>
    cases hx
    cases now with
    | null | bool _ | num _ | str _ | arr _ => cases hstep
    | obj ps =>
      have hgone : Locator.resolve (q ++ [.key (e.siblingKey k)]) doc = none →
          Members.get? (e.siblingKey k) ps = none := by
        intro hnone
        have := habsent q k hhost hnone
        rwa [Locator.walk_snoc, hn] at this
      rw [apply_member hd hr hstep (siblingKey_ne h.suffix k) hgone, argument_member hr hstep, stepChild_member hstep,
        carry_done hdone ht, sibling_eq_beside (hp.resolve h.ordered).1]
      simp only [leave_done hdone ht, Option.bind_eq_some_iff, Option.map_eq_some_iff, Option.filter_eq_some_iff]
      constructor
      · intro hx
        obtain ⟨slot, ho, hf, hrep⟩ := hx
        exact ⟨_, ⟨slot, ⟨ho, hf⟩, rfl⟩, hrep⟩
      · intro hx
        obtain ⟨_, ⟨slot, ⟨ho, hf⟩, rfl⟩, hrep⟩ := hx
        exact ⟨slot, ho, hf, hrep⟩

end Scanned

namespace Course

variable {order : List Invocation} (h : e.Course doc found order)

include h

/-- When the turn of an invocation comes, applying it carries out one more. -/
theorem step (hdoc : doc.Sound) (hs : order = before ++ i :: after)
    (hr : (e.execute before).runOn doc = (.ok (), d)) (hnow : e.evaluate true (hosts before) doc = some d) :
    (e.apply i).runOn d = (.ok (), d') ↔ e.evaluate true (hosts (before ++ [i])) doc = some d' := by
  have hc := h.clear hs
  have hduring := h.during hdoc hs hr
  have hsub : ∀ a ∈ before, a ∈ found := fun a ha => h.mem_before hs ha
  obtain ⟨target, v, key, written, ms, hv, ht, hready⟩ := h.ready (h.mem_turn hs) hc hduring
  rcases List.eq_nil_or_concat' i.host with hroot | ⟨q, s, hhost⟩
  · exact h.step_root hroot hc hv ht hready hduring.sound hnow
  · exact h.step_child hhost hsub hc hv ht hready hduring.sound hnow

/-- What is carried out later has parts that can be evaluated before. -/
theorem evaluate_before (hs : order = before ++ i :: after)
    (he : e.evaluate true (hosts (before ++ [i])) doc = some d) : ∃ d1, e.evaluate true (hosts before) doc = some d1 := by
  have hc := h.clear hs
  rcases List.eq_nil_or_concat' i.host with hroot | ⟨q, s, hhost⟩
  · obtain ⟨opened, ho, -⟩ := Option.bind_eq_some_iff.mp he
    rw [← open?_root_snoc hroot] at ho
    exact ⟨opened, by rw [evaluate_open (pending_above hc List.nil_prefix), ho]⟩
  · obtain ⟨host, target, v, key, written, hv, -, hi⟩ := h.mem_iff.mp (h.mem_turn hs)
    have hplace : host = q ++ [s] := by rw [← hhost, hi, bind_host]
    rw [hplace] at hv
    obtain ⟨parent, hp, hchild⟩ := hv.split
    rw [h.evaluate_snoc hhost (fun a ha => h.mem_before hs ha) hc hp hchild] at he
    obtain ⟨d1, h1, -⟩ := Option.bind_eq_some_iff.mp he
    exact ⟨d1, h1⟩

/-- Up to every turn, the document is the evaluation with what was done so far carried out. -/
theorem execute_value (hdoc : doc.Sound) (hs : order = before ++ after) :
    (e.execute before).runOn doc = (.ok (), d) ↔ e.evaluate true (hosts before) doc = some d := by
  induction before using List.reverseRecOn generalizing after d with
  | nil =>
    have hnone : hosts [] = fun _ => false := rfl
    rw [hnone, evaluate_pending h.scanned, Option.some.injEq]
    exact ⟨fun hx => (congrArg Prod.snd hx), fun hx => congrArg (Prod.mk _) hx⟩
  | append_singleton before i ih =>
    rw [List.append_assoc, List.singleton_append] at hs
    rw [execute_snoc]
    constructor
    · intro hx
      obtain ⟨d1, h1, ha⟩ := hx
      exact (h.step hdoc hs h1 ((ih hs).mp h1)).mp ha
    · intro hx
      obtain ⟨d1, h1⟩ := h.evaluate_before hs hx
      exact ⟨d1, (ih hs).mpr h1, (h.step hdoc hs ((ih hs).mpr h1) h1).mpr hx⟩

/-- At the end every invocation is carried out. -/
theorem evaluate_order : e.evaluate true (hosts order) doc = e.evaluate true (fun _ => true) doc := by
  refine evaluate_congr fun rel target hv hh => ?_
  obtain ⟨⟨v, key, written⟩, ht⟩ := Option.isSome_iff_exists.mp hh
  rw [Locator.root, List.nil_append, hosts_eq_true]
  exact ⟨_, h.perm.mem_iff.mpr (h.mem_iff.mpr ⟨rel, target, v, key, written, hv, ht, rfl⟩), bind_host ..⟩

/-- All carried out, whatever the order: the strict value of the document. -/
theorem execute_order (hdoc : doc.Sound) :
    (e.execute order).runOn doc = (.ok (), d) ↔ e.evaluate true (fun _ => true) doc = some d := by
  rw [← h.evaluate_order]
  exact h.execute_value hdoc (List.append_nil _).symm

end Course

/-- A pass succeeds exactly where the document has a value and every import keeps its own member, and then it ends with
    that value. -/
theorem runPass_value (hvalid : e.config.fault? = none) (hd : doc.Sound) (ho : doc.Ordered)
    (hapart : ∀ found, e.scan doc = .ok found → Apart found) (count : Nat) (result : Json) :
    e.runPass.runOn doc = (.ok count, result) ↔
      e.value doc = some result ∧ e.ImportsStay Locator.root doc ∧
        ∃ found, e.scan doc = .ok found ∧ found.length = count := by
  rw [runPass_ok, ← and_assoc, ← evaluate_strict]
  have hrun : ∀ {found order}, e.scan doc = .ok found → Invocation.schedule found = some order →
      ((e.execute order).runOn doc = (.ok (), result) ↔ e.evaluate true (fun _ => true) doc = some result) := by
    intro found order hscan hs
    have hpass : e.Pass doc found := ⟨ho, suffix_of_fault? hvalid, hscan, hapart found hscan⟩
    exact (hpass.course hs).execute_order hd
  constructor
  · rintro ⟨found, order, hscan, hs, hx, hlength⟩
    exact ⟨(hrun hscan hs).mp hx, found, hscan, hlength⟩
  · rintro ⟨hvalue, found, hscan, hlength⟩
    obtain ⟨order, hs⟩ := exists_schedule ho hscan
    exact ⟨found, order, hscan, hs, (hrun hscan hs).mpr hvalue, hlength⟩

/-- A join whose argument stands beside it; one item of the argument is a choice. -/
def joined : Json := .obj [
  ("a", .obj [("kubegen.String.Join", .bool true)]),
  ("a_args", .arr [.str "x", .obj [("kubegen.Null.If", .bool true), ("then", .str "y")]])]

theorem runPass_value_joined :
    plain.config.fault? = none ∧ joined.Sound ∧ joined.Ordered ∧
      plain.runPass.runOn joined = (.ok 2, .obj [("a", .str "xy")]) := by
  have hscan : ∃ found, plain.scan joined = .ok found ∧ found.length = 2 ∧ ∀ i ∈ found, i.directive.verb ≠ .load :=
    ⟨_, rfl, by decide +kernel, by decide +kernel⟩
  obtain ⟨found, hf, hlength, hload⟩ := hscan
  have hvalid : plain.config.fault? = none := by decide +kernel
  have hs : joined.Sound := by decide
  have ho : joined.Ordered := by decide
  refine ⟨hvalid, hs, ho, (runPass_value hvalid hs ho (fun _ => plain_apart) 2 _).mpr ⟨?_, ?_, found, hf, hlength⟩⟩
  · decide +kernel
  · exact importsStay_of_scan hf hload

end DocExpand.Engine
