/-
  DocExpand.Proofs.Engine.Scanned — the schedule of a scan.

  An invocation takes an argument sibling when its argument is literally true and a member
  beside its object has the key with the suffix. That key is greater than the object's, so
  what is consumed has the greater trail (`Scanned.trail_lt`) and scheduling ends with every
  consumer behind what it consumes. Without a suffix an object is its own sibling, and there
  is a schedule all the same (`exists_schedule`).

  As long as no invocation takes the key of another one for its argument (`Apart`), what is
  consumed is no less deep either, and the schedule has deeper invocations first.

  In every order with these two properties (`Arranged`), whenever the turn of an invocation
  comes nothing done before stands above it or took a sibling around it (`Course.clear`).
-/

import DocExpand.Proofs.Directive
import DocExpand.Proofs.Engine.Order
import DocExpand.Proofs.Engine.Visits
import Mathlib.Data.String.Basic
import Mathlib.Order.WithBot

namespace DocExpand.Engine

open List
open scoped CorePower

variable {e : Engine} {doc : Json} {found : List Invocation}

/-! ## Argument siblings -/

theorem argumentSibling?_eq_some {host s : Locator} :
    e.argumentSibling? doc host = some s ↔ ∃ p k, host = p ++ [.key k] ∧
      s = p ++ [.key (k ++ e.config.argsSuffix)] ∧ (Locator.resolve s doc).isSome := by
  unfold argumentSibling?
  rcases List.eq_nil_or_concat' host with rfl | ⟨p, last, rfl⟩
  · refine ⟨fun h => (nomatch h), fun ⟨p, k, h, _⟩ => ?_⟩
    have := congrArg List.length h
    simp at this
  · rw [List.getLast?_concat, List.dropLast_concat]
    cases last with
    | index n =>
      refine ⟨fun h => (nomatch h), fun ⟨p, k, h, _⟩ => ?_⟩
      have := List.append_inj_right' h rfl
      cases this
    | key k =>
      change (if _ then some _ else none) = some s ↔ _
      constructor
      · intro h
        split at h
        · rename_i hr
          cases h
          exact ⟨p, k, rfl, rfl, hr⟩
        · cases h
      · rintro ⟨q, l, hq, rfl, hr⟩
        obtain ⟨rfl, hl⟩ := List.append_inj' hq rfl
        cases hl
        rw [if_pos hr]

theorem bind_argumentSibling? (host : Locator) (d : Directive) (key : String) (argument : Json) :
    (e.bind doc host d key argument).argumentSibling? =
      if argument = .bool true then e.argumentSibling? doc host else none := by
  unfold Invocation.argumentSibling? bind
  dsimp only
  split
  · rename_i ht
    cases hs : e.argumentSibling? doc host with
    | none => exact if_pos rfl
    | some s =>
      refine if_neg fun h => ?_
      obtain ⟨p, k, rfl, rfl, -⟩ := argumentSibling?_eq_some.mp hs
      have := congrArg List.length h
      simp at this
  · exact if_pos rfl

theorem bind_input (host : Locator) (d : Directive) (key : String) (argument : Json) :
    (e.bind doc host d key argument).input =
      (e.bind doc host d key argument).argumentSibling?.getD (host ++ [.key key]) := by
  rw [bind_argumentSibling?]
  rfl

/-! ## The pass of a scan -/

/-- No invocation takes the key of another one for its argument. -/
def Apart (is : List Invocation) : Prop := ∀ i ∈ is, ∀ j ∈ is, i.argumentSibling? ≠ some j.branch

instance (is : List Invocation) : Decidable (Apart is) := by unfold Apart; infer_instance

/-- A suffix with no dot and with a character that no directive's key ends in keeps invocations apart. -/
theorem apart_of_suffix (hdot : '.' ∉ e.config.argsSuffix.toList)
    (hchar : ∃ c ∈ e.config.argsSuffix.toList, c.isAlphanum = false) (hscan : e.scan doc = .ok found) : Apart found := by
  intro i hi j hj hij
  obtain ⟨q, t, v, k, a, -, -, rfl⟩ := (mem_scan hscan i).mp hi
  obtain ⟨r, u, w, key, b, -, hu, rfl⟩ := (mem_scan hscan j).mp hj
  rw [bind_argumentSibling?, bind_branch] at hij
  split at hij
  · obtain ⟨p, l, -, hs, -⟩ := argumentSibling?_eq_some.mp hij
    have hkey : key = l ++ e.config.argsSuffix := by
      have := (List.append_inj' hs rfl).2
      simpa using this
    obtain ⟨members, -, hinvoked⟩ := host?_eq_some.mp hu
    obtain ⟨hmem, -, hshape⟩ := invocation?_some hinvoked
    obtain ⟨front, word, heq, hword⟩ := Directive.shaped_ends ((hshape _ hmem).mpr rfl)
    obtain ⟨c, hc, hna⟩ := hchar
    rw [hkey, String.toList_append, List.append_eq_append_iff] at heq
    rcases heq with ⟨x, -, hx⟩ | ⟨x, -, hx⟩
    · exact hdot (by rw [hx]; simp)
    · cases x with
      | nil => exact hdot (by rw [List.nil_append] at hx; rw [← hx]; simp)
      | cons y ys =>
        rw [List.cons_append, List.cons.injEq] at hx
        have := hword c (by rw [hx.2]; exact List.mem_append_right _ hc)
        rw [hna] at this
        cases this
  · cases hij

theorem apart_of_default (hsuffix : e.config.argsSuffix = "_args") (hscan : e.scan doc = .ok found) : Apart found := by
  refine apart_of_suffix ?_ ⟨'_', ?_, by decide⟩ hscan
  · rw [hsuffix]
    decide +kernel
  · rw [hsuffix]
    decide +kernel

/-- The default configuration, and nothing to import. -/
def plain : Engine := ⟨{}, fun _ _ => none⟩

theorem plain_apart (h : plain.scan doc = .ok found) : Apart found := apart_of_default rfl h

theorem suffix_of_fault? (h : e.config.fault? = none) : e.config.argsSuffix ≠ "" := by
  unfold Config.fault? at h
  intro he
  split at h
  · cases h
  · split at h
    · cases h
    · split at h
      · cases h
      · rename_i hs
        rw [he] at hs
        exact hs rfl

/-- The invocations of an ordered document. -/
structure Scanned (e : Engine) (doc : Json) (found : List Invocation) : Prop where
  ordered : doc.Ordered
  suffix : e.config.argsSuffix ≠ ""
  scanned : e.scan doc = .ok found

/-- The texts along the branch of an invocation. -/
def trail (i : Invocation) : List String := i.branch.map Segment.text

namespace Scanned

variable (h : e.Scanned doc found) {i j : Invocation}

include h

theorem mem_iff : i ∈ found ↔ ∃ host target d key argument, e.Visited doc host target ∧
    e.host? target = some (d, key, argument) ∧ i = e.bind doc host d key argument :=
  mem_scan h.scanned i

theorem eq_of_host (hi : i ∈ found) (hj : j ∈ found) (he : i.host = j.host) : i = j := by
  obtain ⟨p, t, d, k, a, hv, ht, rfl⟩ := h.mem_iff.mp hi
  obtain ⟨q, u, d', k', a', hv', hu, rfl⟩ := h.mem_iff.mp hj
  rw [bind_host, bind_host] at he
  subst he
  rw [hv.unique hv' h.ordered, hu] at ht
  cases ht
  rfl

theorem nodup : found.Nodup :=
  List.Pairwise.of_map Invocation.host (fun _ _ hne heq => hne (congrArg Invocation.host heq)) (scan_nodup h.ordered h.scanned)

theorem branch_eq (hi : i ∈ found) : ∃ key, i.branch = i.host ++ [.key key] := by
  obtain ⟨p, t, d, k, a, -, -, rfl⟩ := h.mem_iff.mp hi
  exact ⟨k, by rw [bind_host, bind_branch]⟩

theorem depth_eq (hi : i ∈ found) : i.depth = i.host.length + 1 := by
  obtain ⟨k, hk⟩ := h.branch_eq hi
  rw [Invocation.depth, hk, Locator.depth, List.length_append, List.length_singleton]

theorem sibling_eq (hi : i ∈ found) {s : Locator} (hs : i.argumentSibling? = some s) :
    ∃ p k, i.host = p ++ [.key k] ∧ s = p ++ [.key (k ++ e.config.argsSuffix)] := by
  obtain ⟨q, t, d, k, a, -, -, rfl⟩ := h.mem_iff.mp hi
  rw [bind_argumentSibling?] at hs
  split at hs
  · obtain ⟨p, k, hp, hs, -⟩ := argumentSibling?_eq_some.mp hs
    exact ⟨p, k, by rw [bind_host, hp], hs⟩
  · cases hs

/-- An invocation was found at an object, its sibling beside that object. -/
theorem host_walk (hi : i ∈ found) : ∃ ms, Locator.walk i.host doc = some (.obj ms) := by
  obtain ⟨host, target, v, key, written, hv, ht, rfl⟩ := h.mem_iff.mp hi
  obtain ⟨ms, rfl, -⟩ := host?_eq_some.mp ht
  exact ⟨ms, by rw [bind_host]; exact (hv.walk h.ordered).1⟩

/-- The argument of an invocation that was found, and the payload fetched for it. -/
theorem fetched (hi : i ∈ found) :
    ∃ argument, Locator.walk i.branch doc = some argument ∧
      i.payload = if i.directive.verb = .load then e.imports i.host argument else none := by
  obtain ⟨host, target, v, key, argument, hvisited, htarget, rfl⟩ := h.mem_iff.mp hi
  obtain ⟨members, rfl, hinvoked⟩ := host?_eq_some.mp htarget
  obtain ⟨hmem, -, -⟩ := invocation?_some hinvoked
  exact ⟨argument, hvisited.walk_member h.ordered hmem, by rw [bind_payload, bind_directive, bind_host]⟩

theorem parent_walk {q : Locator} {k : String} (hi : i ∈ found) (hhost : i.host = q ++ [.key k]) :
    ∃ ps, Locator.walk q doc = some (.obj ps) := by
  obtain ⟨ms, hw⟩ := h.host_walk hi
  rw [hhost] at hw
  exact Locator.walk_parent hw

/-- A sibling's key is greater than the key beside it, so what is consumed has the greater trail. -/
theorem trail_lt (hi : i ∈ found) (hc : i.consumes j = true) : trail i < trail j := by
  rw [Invocation.consumes, Option.any_eq_true] at hc
  obtain ⟨s, hs, hw⟩ := hc
  obtain ⟨p, k, hp, rfl⟩ := h.sibling_eq hi hs
  obtain ⟨key, hbranch⟩ := h.branch_eq hi
  obtain ⟨r, hr⟩ := List.isPrefixOf_iff_prefix.mp hw
  have hti : trail i = p.map Segment.text ++ k :: [key] := by
    rw [trail, hbranch, hp]
    simp [Segment.text]
  have htj : trail j = p.map Segment.text ++ (k ++ e.config.argsSuffix) :: r.map Segment.text := by
    rw [trail, ← hr]
    simp [Segment.text]
  rw [hti, htj]
  exact List.Lex.append_left _ (.rel (lt_append_suffix k h.suffix)) _

theorem irreflexive (hi : i ∈ found) : i.consumes i = false :=
  Bool.eq_false_iff.mpr fun hc => lt_irrefl _ (h.trail_lt hi hc)

/-- Some order has every consumer behind what it consumes. -/
theorem exists_settled : ∃ order, order.Perm found ∧ Invocation.Settled order :=
  Invocation.exists_settled_of_rank h.nodup fun _ hi _ _ _ hc => h.trail_lt hi hc

end Scanned

/-- With no suffix an invocation that has a sibling has its own object for it. What it consumes is deeper, or is the
    invocation whose argument that object is, and that one has no sibling. -/
theorem consumes_unsuffixed (hsuffix : e.config.argsSuffix = "") (ho : doc.Ordered) (hscan : e.scan doc = .ok found)
    {i j : Invocation} (hi : i ∈ found) (hj : j ∈ found) (hne : i ≠ j) (hc : i.consumes j = true) :
    (∃ s, i.argumentSibling? = some s) ∧ (j.argumentSibling? = none ∨ i.depth < j.depth) := by
  rw [Invocation.consumes, Option.any_eq_true] at hc
  obtain ⟨s, hs, hw⟩ := hc
  refine ⟨⟨s, hs⟩, ?_⟩
  obtain ⟨p, target, d, k, a, hv, htarget, rfl⟩ := (mem_scan hscan i).mp hi
  obtain ⟨q, other, d', l, b, hv', hother, rfl⟩ := (mem_scan hscan j).mp hj
  obtain ⟨members, rfl, -⟩ := host?_eq_some.mp htarget
  obtain ⟨siblings, rfl, hinvoked⟩ := host?_eq_some.mp hother
  have hsp : s = p := by
    rw [bind_argumentSibling?] at hs
    split at hs
    · obtain ⟨r, m, rfl, rfl, -⟩ := argumentSibling?_eq_some.mp hs
      rw [hsuffix, String.append_empty]
    · cases hs
  rw [hsp, Locator.within, List.isPrefixOf_iff_prefix, bind_branch, List.prefix_concat_iff] at hw
  rcases hw with rfl | hw
  · -- the object around `i` is the argument of `j`
    obtain ⟨hmem, -, -⟩ := invocation?_some hinvoked
    have hthere := hv'.walk_member ho hmem
    rw [(hv.walk ho).1] at hthere
    cases hthere
    rw [bind_argumentSibling?, if_neg (by simp)]
    exact .inl rfl
  · have hdiffer : p ≠ q := fun he =>
      hne (List.inj_on_of_nodup_map (scan_nodup ho hscan) hi hj (by rw [bind_host, bind_host, he]))
    have hlonger : p.length < q.length :=
      Nat.lt_of_le_of_ne hw.length_le fun he => hdiffer (hw.eq_of_length he)
    refine .inr ?_
    simp only [Invocation.depth, bind_branch, Locator.depth, List.length_append, List.length_singleton]
    omega

/-- With no suffix the consumers come by depth, and then all the others. -/
theorem exists_settled_unsuffixed (hsuffix : e.config.argsSuffix = "") (ho : doc.Ordered) (hscan : e.scan doc = .ok found) :
    ∃ order, order.Perm found ∧ Invocation.Settled order := by
  have hn : found.Nodup := List.Nodup.of_map _ (scan_nodup ho hscan)
  have hrank : ∀ i ∈ found, ∀ j ∈ found, i ≠ j → i.consumes j = true →
      (if i.argumentSibling? = none then (⊤ : WithTop Nat) else i.depth) <
        if j.argumentSibling? = none then (⊤ : WithTop Nat) else j.depth := by
    intro i hi j hj hne hc
    obtain ⟨⟨s, hsib⟩, hrest⟩ := consumes_unsuffixed hsuffix ho hscan hi hj hne hc
    simp only [hsib, reduceCtorEq, if_false]
    split
    · exact WithTop.coe_lt_top _
    · rename_i hother
      exact WithTop.coe_lt_coe.mpr (hrest.resolve_left hother)
  exact Invocation.exists_settled_of_rank hn hrank

/-- Every scan of an ordered document has a schedule. -/
theorem exists_schedule (ho : doc.Ordered) (hscan : e.scan doc = .ok found) :
    ∃ order, Invocation.schedule found = some order := by
  by_cases hsuffix : e.config.argsSuffix = ""
  · obtain ⟨js, hp, hs⟩ := exists_settled_unsuffixed hsuffix ho hscan
    exact Invocation.exists_schedule hp hs
  · have h : e.Scanned doc found := ⟨ho, hsuffix, hscan⟩
    obtain ⟨js, hp, hs⟩ := h.exists_settled
    exact Invocation.exists_schedule hp hs

/-- What a pass starts from. -/
structure Pass (e : Engine) (doc : Json) (found : List Invocation) : Prop where
  ordered : doc.Ordered
  suffix : e.config.argsSuffix ≠ ""
  scanned : e.scan doc = .ok found
  apart : Apart found

theorem Pass.toScanned (h : e.Pass doc found) : e.Scanned doc found := ⟨h.ordered, h.suffix, h.scanned⟩

namespace Pass

variable (h : e.Pass doc found) {i j : Invocation}

include h

/-- What is consumed stands at or beneath the sibling. -/
theorem consumes_iff (hi : i ∈ found) (hj : j ∈ found) :
    i.consumes j = true ↔ ∃ s, i.argumentSibling? = some s ∧ s <+: j.host := by
  obtain ⟨k, hk⟩ := h.toScanned.branch_eq hj
  unfold Invocation.consumes
  rw [Option.any_eq_true]
  constructor
  · rintro ⟨s, hs, hw⟩
    refine ⟨s, hs, ?_⟩
    rw [Locator.within, List.isPrefixOf_iff_prefix, hk, List.prefix_concat_iff] at hw
    rcases hw with hw | hw
    · rw [hw, ← List.concat_eq_append, List.concat_eq_append, ← hk] at hs
      exact absurd hs (h.apart i hi j hj)
    · exact hw
  · rintro ⟨s, hs, hw⟩
    refine ⟨s, hs, ?_⟩
    rw [Locator.within, List.isPrefixOf_iff_prefix, hk]
    exact hw.trans (List.prefix_append ..)

theorem level : Invocation.Level found := by
  intro i hi j hj hc
  obtain ⟨s, hs, hw⟩ := (h.consumes_iff hi hj).mp hc
  obtain ⟨p, k, hp, rfl⟩ := h.toScanned.sibling_eq hi hs
  have := hw.length_le
  rw [h.toScanned.depth_eq hi, h.toScanned.depth_eq hj, hp]
  simp only [List.length_append, List.length_singleton] at this ⊢
  omega

theorem schedule_falling {order : List Invocation} (hs : Invocation.schedule found = some order) :
    Invocation.Falling order :=
  Invocation.schedule_falling hs h.level

end Pass

/-! ## The schedule -/

namespace Scanned

variable (h : e.Scanned doc found) {order : List Invocation} (hs : Invocation.schedule found = some order)
  {i j : Invocation}

include h hs

/-- Whatever is consumed, also through other consumers, is scheduled before its consumer. -/
theorem chain_scheduled (hi : i ∈ found) (hc : Invocation.Chain found i j) : [j, i] <+ order := by
  have hmem : ∀ {a}, a ∈ order ↔ a ∈ found := Invocation.mem_schedule hs
  have hn := (Invocation.schedule_perm hs).nodup_iff.mpr h.nodup
  have hself : ∀ a ∈ order, a.consumes a = false := fun a ha => h.irreflexive (hmem.mp ha)
  have hc' : Invocation.Chain order i j := hc.lift id fun a b hab => ⟨hmem.mpr hab.1, hab.2⟩
  exact Invocation.pair_of_chain (Invocation.schedule_settled hs) hn hself (hmem.mpr hi) hc'

/-- An invocation whose key another one takes for its argument is less deep than that one, but comes first. -/
theorem apart_of_falling (hf : Invocation.Falling order) : Apart found := by
  intro i hi j hj hsib
  have hc : i.consumes j = true := by
    rw [Invocation.consumes, hsib, Option.any_some]
    exact List.isPrefixOf_iff_prefix.mpr List.prefix_rfl
  have hpair := h.chain_scheduled hs hi (.single ⟨hj, hc⟩)
  have hdepth : i.depth ≤ j.depth := List.pairwise_iff_forall_sublist.mp hf hpair
  obtain ⟨p, k, hp, hj'⟩ := h.sibling_eq hi hsib
  rw [h.depth_eq hi, hp, Invocation.depth, hj', Locator.depth] at hdepth
  simp only [List.length_append, List.length_singleton] at hdepth
  omega

end Scanned

/-- Scheduling what a scan found ends, loses and repeats nothing, and puts all that is consumed before its consumers.
    Invocations of one depth that consume nothing keep the order of their phases and of the scan. Deeper invocations
    come first exactly if no invocation takes the key of another one for its argument. -/
theorem schedule_of_scan (hsuffix : e.config.argsSuffix ≠ "") (ho : doc.Ordered) (hscan : e.scan doc = .ok found) :
    ∃ order, Invocation.schedule found = some order ∧
      Invocation.settle? (2 ^ found.length) (Invocation.sort found) = some order ∧ order.Perm found ∧
      (Invocation.Falling order ↔ Apart found) ∧
      (∀ i ∈ found, ∀ j, Invocation.Chain found i j → [j, i] <+ order) ∧
      ∀ i ∈ found, ∀ j ∈ found, i.depth = j.depth → Invocation.idle found i = true → Invocation.idle found j = true →
        Invocation.Earlier found i j → [i, j] <+ order := by
  have h : e.Scanned doc found := ⟨ho, hsuffix, hscan⟩
  obtain ⟨order, hs⟩ := exists_schedule ho hscan
  refine ⟨order, hs, hs, Invocation.schedule_perm hs, ⟨h.apart_of_falling hs, fun ha => ?_⟩, fun i hi j hc => ?_,
    fun i hi j hj hd hii hij hearlier => ?_⟩
  · have hpass : e.Pass doc found := ⟨ho, hsuffix, hscan, ha⟩
    exact hpass.schedule_falling hs
  · exact h.chain_scheduled hs hi hc
  · exact Invocation.pair_of_idle hs hii hij (Invocation.sort_pair hi hj hd hearlier)

/-- A sibling whose invocation takes a sibling of its own. -/
def chained : Json := .obj [
  ("a", .obj [("kubegen.String.AsBASE64", .bool true)]),
  ("a_args", .obj [("kubegen.String.Join", .bool true)]),
  ("a_args_args", .obj [("kubegen.String.AsJSON", .str "x")])]

theorem schedule_of_scan_chained :
    plain.config.argsSuffix ≠ "" ∧ chained.Ordered ∧ ∃ first second third,
      plain.scan chained = .ok [first, second, third] ∧ first.consumes third = false ∧
        Invocation.Chain [first, second, third] first third ∧
        ∃ order, Invocation.schedule [first, second, third] = some order ∧ [third, first] <+ order := by
  have hsuffix : plain.config.argsSuffix ≠ "" := by decide +kernel
  have ho : chained.Ordered := by decide
  have hscan : ∃ first second third, plain.scan chained = .ok [first, second, third] ∧ first.consumes third = false ∧
      first.consumes second = true ∧ second.consumes third = true := ⟨_, _, _, rfl, by decide +kernel⟩
  obtain ⟨first, second, third, hscan, hnot, h1, h2⟩ := hscan
  have hchain : Invocation.Chain [first, second, third] first third :=
    .tail (.single ⟨by simp, h1⟩) ⟨by simp, h2⟩
  have hfirst : first ∈ [first, second, third] := List.mem_cons_self ..
  obtain ⟨order, hs, -, -, -, hbefore, -⟩ := schedule_of_scan hsuffix ho hscan
  exact ⟨hsuffix, ho, first, second, third, hscan, hnot, hchain, order, hs, hbefore first hfirst third hchain⟩

/-! ## Orders that a pass can take -/

/-- Deeper invocations come first, and all that stands inside an argument sibling comes before its consumer. -/
structure Arranged (found order : List Invocation) : Prop where
  perm : order.Perm found
  falling : Invocation.Falling order
  inner : order.Pairwise fun a b => ∀ s, a.argumentSibling? = some s → ¬ s <+: b.host

theorem Arranged.of_settled {order : List Invocation} (hp : order.Perm found) (hf : Invocation.Falling order)
    (hs : Invocation.Settled order) : Arranged found order := by
  refine ⟨hp, hf, hs.imp fun {a b} hc s hs' hw => ?_⟩
  have : a.consumes b = true := by
    rw [Invocation.consumes, hs', Option.any_some, Locator.within, List.isPrefixOf_iff_prefix]
    exact hw.trans (List.dropLast_prefix b.branch)
  rw [hc] at this
  cases this

/-- A document's invocations in an order that a pass can take. -/
structure Course (e : Engine) (doc : Json) (found order : List Invocation) : Prop extends
  Scanned e doc found, Arranged found order

theorem Pass.course {order : List Invocation} (h : e.Pass doc found) (hs : Invocation.schedule found = some order) :
    e.Course doc found order :=
  ⟨h.toScanned, .of_settled (Invocation.schedule_perm hs) (h.schedule_falling hs) (Invocation.schedule_settled hs)⟩

/-- Nothing that was done stands at or above a place, nor took a sibling at or above it. -/
structure Clear (done : List Invocation) (place : Locator) : Prop where
  above : ∀ a ∈ done, ¬ a.host <+: place
  taken : ∀ a ∈ done, ∀ s, a.argumentSibling? = some s → ¬ s <+: place

namespace Course

variable {before after order : List Invocation} {i : Invocation} (h : e.Course doc found order)
  (hs : order = before ++ i :: after)

include h hs

theorem mem_turn : i ∈ found := h.perm.mem_iff.mp (by rw [hs]; simp)

theorem mem_before {a : Invocation} (ha : a ∈ before) : a ∈ found :=
  h.perm.mem_iff.mp (by rw [hs]; exact List.mem_append_left _ ha)

/-- What was done before is not done again. -/
theorem ne_of_before {a : Invocation} (ha : a ∈ before) : a ≠ i := by
  intro hai
  have hn : (before ++ i :: after).Nodup := hs ▸ h.perm.nodup_iff.mpr h.nodup
  exact (List.nodup_append.mp hn).2.2 a ha i (List.mem_cons_self ..) hai

/-- Whenever the turn of an invocation comes, the way to it is clear. -/
theorem clear : Clear before i.host := by
  have hi := h.mem_turn hs
  have hfall := hs ▸ h.falling
  have hin := hs ▸ h.inner
  refine ⟨fun a ha hp => ?_, fun a ha s hs' hp => ?_⟩
  · have haf := h.mem_before hs ha
    have hd := (List.pairwise_append.mp hfall).2.2 a ha i (List.mem_cons_self ..)
    rw [h.depth_eq haf, h.depth_eq hi] at hd
    exact h.ne_of_before hs ha (h.eq_of_host haf hi (hp.eq_of_length_le (by omega)))
  · exact (List.pairwise_append.mp hin).2.2 a ha i (List.mem_cons_self ..) s hs' hp

end Course

theorem Pass.clear (h : e.Pass doc found) {before after : List Invocation} {i : Invocation}
    (hs : Invocation.schedule found = some (before ++ i :: after)) : Clear before i.host := (h.course hs).clear rfl

end DocExpand.Engine
