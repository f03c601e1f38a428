/-
  DocExpand.Proofs.Engine.Stale — invocations carried out on whatever they find.

  With an argument suffix that makes one directive's key the argument sibling of another
  object, an object can be replaced before the turn of an invocation beneath it. Such a turn
  may still succeed, on something else. Whatever it finds, it writes a node without shaped
  keys, moves an arm up, removes something or merges an import (`act_acted`).

  Only one place is sure to be there: an object under the key of the directive around it
  comes before that directive (`key_first`), and so is still there when its turn comes
  (`Scanned.host_there`).
-/

import DocExpand.Proofs.Engine.Depth
import DocExpand.Proofs.Locator.Lenient

namespace DocExpand.Engine

open Edit List

variable {e : Engine} {d d' d1 doc now node written : Json} {found before after : List Invocation} {i j : Invocation}
  {host p q : Locator} {key k : String} {v : Directive}

/-- Neither the parameters nor the imports have shaped keys. -/
structure Inert (e : Engine) : Prop where
  parameter : ∀ name found, e.parameter? name = some found → e.shaped found = false
  payload : ∀ host argument bytes imported, e.imports host argument = some bytes → Json.decode bytes = some imported →
    e.shaped imported = false

/-- Imports held by name bring what their payloads decode to. -/
theorem inert_of_entries {entries : Members ByteArray} (hparams : ∀ m ∈ e.config.parameters, e.shaped m.2.toJson = false)
    (himports : e.imports = Imports.ofEntries entries)
    (hentries : ∀ m ∈ entries, ∀ imported, Json.decode m.2 = some imported → e.shaped imported = false) :
    e.Inert := by
  constructor
  · intro name found h
    obtain ⟨value, hvalue, rfl⟩ := Option.map_eq_some_iff.mp h
    exact hparams _ (Members.mem_of_get? hvalue)
  · intro host argument bytes imported h himported
    rw [himports] at h
    exact hentries _ (Members.mem_of_get? h) imported himported

/-! ## What a verb does -/

/-- What a verb that succeeds has done to the document. -/
inductive Acted (e : Engine) (i : Invocation) (d d' : Json) : Prop
  | wrote {node : Json} : e.shaped node = false → node.Ordered → Locator.write? i.host node d = some d' → Acted e i d d'
  | chose {arm : String} {node : Json} : i.directive.verb = .choose → isArm arm = true →
      Locator.resolve (i.host ++ [.key arm]) d = some node → Locator.write? i.host node d = some d' → Acted e i d d'
  | gone {q : Locator} {k : String} : i.host = q ++ [.key k] → Locator.remove? i.host d = some d' → Acted e i d d'
  | merged {key : String} {ms : Members Json} {combined : Json} : i.branch = i.host ++ [.key key] →
      Locator.resolve i.host d = some (.obj ms) → combined.Ordered →
      (∀ p, e.Keyed combined p → e.Keyed (.obj (Members.erase key ms)) p) → Locator.write? i.host combined d = some d' →
      Acted e i d d'

theorem load_merged {payload : ByteArray} (hi : e.Inert) (hd : d.Sound) (ho : d.Ordered) (hv : v.verb = .load)
    (hp : e.imports host written = some payload)
    (h : (e.load (host ++ [.key key]) v.produces payload).runOn d = (.ok (), d')) :
    Acted e (e.bind doc host v key written) d d' := by
  obtain ⟨ms, hr⟩ := load_target h
  obtain ⟨slot, hout, -, hplace⟩ : ∃ slot, e.outcome true v host key written none ms = some slot ∧ _ :=
    (load_ok hd hr hv hp).mp h
  have hordered : ∀ combined, slot = some combined → combined.Ordered := by
    intro combined hslot
    subst hslot
    exact outcome_ordered (Locator.resolve_ordered ho hr) hout
  obtain ⟨-, imported, combined, himported, hc, -, rfl⟩ := (outcome_load hv).mp hout
  rw [hp, Option.bind_some] at himported
  have hplain := hi.payload host written payload imported hp himported
  refine @Acted.merged _ _ _ _ key ms combined (by rw [bind_host, bind_branch]) (by rwa [bind_host])
    (hordered combined rfl) (fun p hk => ?_) ?_
  · rcases combine_ok.mp hc with ⟨-, incoming, rfl, rfl⟩ | ⟨-, -, items, rfl, rfl⟩
    · exact keyed_of_merge _ incoming hplain hk
    · exact absurd hk (not_keyed hplain)
  · rw [bind_host, Locator.write?_eq_replace? hr]
    exact hplace

theorem act_acted (hi : e.Inert) (hd : d.Sound) (ho : d.Ordered)
    (h : (e.act (e.bind doc host v key written)).runOn d = (.ok (), d')) : Acted e (e.bind doc host v key written) d d' := by
  have htold := e.deed_told (e.bind doc host v key written) (arm? (e.bind doc host v key written) d)
    (Locator.resolve (e.bind doc host v key written).input d)
  rw [runOn_act] at h
  cases hdeed : e.deed (e.bind doc host v key written) _ _ with
  | refuse cause =>
    rw [hdeed] at h
    cases h
  | write node =>
    rw [hdeed] at h htold
    have hwritten := put_written rfl h
    cases htold with
    | arm hv harm => exact .chose hv (Literal.armKey_isArm _) harm hwritten
    | @parameter name _ hfound =>
      obtain ⟨y, -, rfl⟩ := Option.map_eq_some_iff.mp hfound
      exact .wrote (hi.parameter name _ hfound) y.toJson_ordered hwritten
    | text text => exact @Acted.wrote _ _ _ _ (.str text) rfl trivial hwritten
  | leave arm =>
    rw [hdeed, Deed.edit] at h
    split at h
    · rename_i k hlast
      obtain ⟨q, hq⟩ := List.getLast?_eq_some_iff.mp hlast
      exact .gone hq (delete_removed h)
    · exact @Acted.wrote _ _ _ _ .null rfl trivial (put_written rfl h)
    · cases h
  | load payload =>
    rw [hdeed] at h htold
    obtain ⟨hv, hp⟩ := htold
    rw [bind_directive] at hv
    rw [bind_payload, if_pos hv] at hp
    rw [Deed.edit, bind_branch, bind_directive, atomically_ok] at h
    exact load_merged hi hd ho hv hp h

theorem Acted.ordered (h : Acted e i d d') (ho : d.Ordered) : d'.Ordered := by
  cases h with
  | wrote _ hn hw => exact Locator.write?_ordered ho hn hw
  | chose _ _ hr hw => exact Locator.write?_ordered ho (Locator.resolve_ordered ho hr) hw
  | gone _ hr => exact Locator.remove?_ordered ho hr
  | merged _ _ hn _ hw => exact Locator.write?_ordered ho hn hw

theorem apply_acted (hi : e.Inert) (hd : d.Sound) (ho : d.Ordered)
    (h : (e.apply (e.bind doc host v key written)).runOn d = (.ok (), d')) :
    ∃ d1, Acted e (e.bind doc host v key written) d d1 ∧ d1.Ordered ∧
      (d' = d1 ∨ ∃ s, (e.bind doc host v key written).argumentSibling? = some s ∧ Locator.remove? s d1 = some d') := by
  obtain ⟨d1, hact, hsweep⟩ := (apply_performed _).mp h
  have hacted := act_acted hi hd ho hact
  have hsound : d1.Sound := by
    have := e.safe_act (e.bind doc host v key written) d hd
    rwa [hact] at this
  have hswept := (removeSibling_ok hsound fun _ => sibling_ne_nil).mp hsweep
  refine ⟨d1, hacted, hacted.ordered ho, ?_⟩
  unfold swept at hswept
  cases hs : (e.bind doc host v key written).argumentSibling? with
  | none =>
    rw [hs] at hswept
    exact .inl hswept.symm
  | some s =>
    rw [hs, Option.bind_some] at hswept
    cases hr : Locator.remove? s d1 with
    | none =>
      rw [hr] at hswept
      exact .inl hswept.symm
    | some d2 =>
      rw [hr] at hswept
      exact .inr ⟨s, rfl, by rw [← hswept]; exact hr⟩

/-! ## Places that stay -/

namespace Scanned

variable (h : e.Scanned doc found)

include h

theorem intact_acted (hi : i ∈ found) (hnot : ¬ i.host <+: p) (ha : Acted e i d d') (hp : Locator.Intact p doc d) :
    Locator.Intact p doc d' := by
  obtain ⟨ms, hhost⟩ := h.host_walk hi
  cases ha with
  | wrote _ _ hw => exact hp.written hhost hnot (Locator.written_of_write? hw)
  | chose _ _ _ hw => exact hp.written hhost hnot (Locator.written_of_write? hw)
  | merged _ _ _ _ hw => exact hp.written hhost hnot (Locator.written_of_write? hw)
  | gone heq hr =>
    obtain ⟨ps, hq⟩ := h.parent_walk hi heq
    rw [heq] at hr hnot
    exact hp.removed hq hnot (Locator.removed_of_remove? (by simp) hr)

/-- What a turn that succeeds has done: what its verb does, and then its argument sibling is gone if it was there. -/
theorem turn_acted (hinert : e.Inert) (hi : i ∈ found) (hd : d.Sound) (ho : d.Ordered)
    (ha : (e.apply i).runOn d = (.ok (), d')) :
    d'.Sound ∧ d'.Ordered ∧ ∃ d1, Acted e i d d1 ∧ d1.Ordered ∧ (d' = d1 ∨ ∃ q k ps,
      i.argumentSibling? = some (q ++ [.key k]) ∧ Locator.walk q doc = some (.obj ps) ∧
        Locator.Removed (q ++ [.key k]) d1 d') := by
  have hacted : ∃ d1, Acted e i d d1 ∧ d1.Ordered ∧
      (d' = d1 ∨ ∃ s, i.argumentSibling? = some s ∧ Locator.remove? s d1 = some d') := by
    obtain ⟨host, target, v, key, written, -, -, rfl⟩ := h.mem_iff.mp hi
    exact apply_acted hinert hd ho ha
  obtain ⟨d1, hacted, ho1, hsweep⟩ := hacted
  refine ⟨safe_applied hd ha, ?_, d1, hacted, ho1, ?_⟩
  · rcases hsweep with rfl | ⟨s, -, hrem⟩
    · exact ho1
    · exact Locator.remove?_ordered ho1 hrem
  · refine hsweep.imp_right fun hs => ?_
    obtain ⟨s, hs, hrem⟩ := hs
    obtain ⟨q, k, hhost, rfl⟩ := h.sibling_eq hi hs
    obtain ⟨ps, hq⟩ := h.parent_walk hi hhost
    exact ⟨q, _, ps, hs, hq, Locator.removed_of_remove? (by simp) hrem⟩

/-- What was done leaves a place where it is, if it was done neither there nor above it. -/
theorem intact_execute (hinert : e.Inert) (hd : doc.Sound) (hsub : ∀ a ∈ before, a ∈ found) (hclear : Clear before p)
    (hp : Locator.walk p doc = some node) (hr : (e.execute before).runOn doc = (.ok (), now)) :
    Locator.Intact p doc now ∧ now.Sound ∧ now.Ordered := by
  induction before using List.reverseRecOn generalizing now with
  | nil =>
    cases hr
    exact ⟨Locator.intact_refl hp, hd, h.ordered⟩
  | append_singleton before i ih =>
    obtain ⟨d, hd1, happly⟩ := execute_snoc.mp hr
    have hmem : i ∈ before ++ [i] := List.mem_append_right _ (List.mem_singleton_self i)
    have hi := hsub i hmem
    obtain ⟨hint, hsound, hord⟩ := ih (fun a ha => hsub a (List.mem_append_left _ ha))
      ⟨fun a ha => hclear.above a (List.mem_append_left _ ha), fun a ha => hclear.taken a (List.mem_append_left _ ha)⟩ hd1
    obtain ⟨hsound', hord', d1, hacted, -, hsweep⟩ := h.turn_acted hinert hi hsound hord happly
    have hint1 := h.intact_acted hi (hclear.above _ hmem) hacted hint
    refine ⟨?_, hsound', hord'⟩
    rcases hsweep with rfl | ⟨q, k, ps, hs, hq, hrem⟩
    · exact hint1
    · exact hint1.removed hq (hclear.taken _ hmem _ hs) hrem

/-- An object under the key of the directive around it has its turn before that directive and all that is around it. -/
theorem key_first (hj : j ∈ found) (hkey : j.branch = i.host)
    (hs : Invocation.schedule found = some (before ++ i :: after)) : ∀ a ∈ before, ¬ a.host <+: j.host := by
  obtain ⟨key, hbranch⟩ := h.branch_eq hj
  -- the invocations behind that key, and behind later keys beside it, consume only one another
  have hpair : (before ++ i :: after).Pairwise fun a b =>
      (∃ t r, b.host = j.host ++ .key t :: r ∧ key ≤ t) → ¬ a.host <+: j.host := by
    refine Invocation.schedule_closed hs ?_ ?_ ?_
    · rintro x ⟨t, r, hx, -⟩ hq
      have := hq.length_le
      rw [hx] at this
      simp at this
    · rintro x hx z hz hc ⟨t, r, hhost, hle⟩
      rw [Invocation.consumes, Option.any_eq_true] at hc
      obtain ⟨s, hsib, hw⟩ := hc
      obtain ⟨p, k, hp, rfl⟩ := h.sibling_eq hx hsib
      obtain ⟨l, hz'⟩ := h.branch_eq hz
      rw [Locator.within, List.isPrefixOf_iff_prefix, hz', List.prefix_concat_iff] at hw
      rcases List.eq_nil_or_concat' r with rfl | ⟨r, last, rfl⟩
      · -- the consumer stands under `t`, its sibling under a later key
        rw [hhost] at hp
        obtain ⟨rfl, hk⟩ := List.append_inj' hp rfl
        cases hk
        rcases hw with hw | ⟨r, hr⟩
        · obtain ⟨hzj, hl⟩ := List.append_inj' hw rfl
          cases hl
          rw [← h.eq_of_host hj hz hzj, hbranch] at hz'
          have hlast : key = t ++ e.config.argsSuffix := Literal.last_key hz'
          exact absurd (hlast ▸ hle) (not_le_of_gt (lt_append_suffix t h.suffix))
        · exact ⟨_, r, by rw [← hr, List.append_assoc]; rfl, le_trans hle (le_of_lt (lt_append_suffix t h.suffix))⟩
      · -- the sibling stands beneath `t` like its consumer
        rw [hhost, ← List.cons_append, ← List.append_assoc] at hp
        obtain ⟨rfl, -⟩ := List.append_inj' hp rfl
        have hprefix : j.host ++ .key t :: r <+: z.host := by
          rcases hw with hw | hw
          · exact ⟨[], by rw [List.append_nil]; exact (List.append_inj' hw rfl).1⟩
          · exact (List.prefix_append ..).trans hw
        obtain ⟨y, hy⟩ := hprefix
        exact ⟨t, r ++ y, by rw [← hy, List.append_assoc, List.cons_append], hle⟩
    · rintro x hx z hz ⟨t, r, hhost, -⟩ hq
      rw [h.depth_eq hx, h.depth_eq hz, hhost]
      have := hq.length_le
      simp only [List.length_append, List.length_cons]
      omega
  intro a ha
  exact (List.pairwise_append.mp hpair).2.2 a ha i (List.mem_cons_self ..) ⟨key, [], by rw [← hkey, hbranch], le_refl key⟩

/-- So it is there when its turn comes. -/
theorem host_there (hinert : e.Inert) (hd : doc.Sound) (hj : j ∈ found) (hkey : j.branch = i.host)
    (hs : Invocation.schedule found = some (before ++ i :: after)) (hr : (e.execute before).runOn doc = (.ok (), now)) :
    ∃ n, Locator.walk i.host now = some n := by
  have hmem : ∀ {a}, a ∈ before ++ i :: after → a ∈ found := fun ha => (Invocation.mem_schedule hs).mp ha
  have hi : i ∈ found := hmem (by simp)
  obtain ⟨key, hbranch⟩ := h.branch_eq hj
  have hset := Invocation.schedule_settled hs
  have hn : (before ++ i :: after).Nodup := (Invocation.schedule_perm hs).nodup_iff.mpr h.nodup
  have hclear : Clear before i.host := by
    refine ⟨fun a ha hp => ?_, fun a ha s hsib hp => ?_⟩
    · have haf := hmem (List.mem_append_left _ ha)
      rw [← hkey, hbranch, List.prefix_concat_iff] at hp
      rcases hp with heq | hp
      · have hai := h.eq_of_host haf hi (by rw [heq, ← hkey, hbranch])
        exact (List.nodup_append.mp hn).2.2 a ha i (List.mem_cons_self ..) hai
      · exact h.key_first hj hkey hs a ha hp
    · have hnot := (List.pairwise_append.mp hset).2.2 a ha i (List.mem_cons_self ..)
      rw [Invocation.consumes, hsib, Option.any_some, Locator.within] at hnot
      rw [List.isPrefixOf_iff_prefix.mpr (hp.trans (List.dropLast_prefix i.branch))] at hnot
      cases hnot
  obtain ⟨ms, hw⟩ := h.host_walk hi
  obtain ⟨hint, -⟩ := h.intact_execute hinert hd (fun a ha => hmem (List.mem_append_left _ ha)) hclear hw hr
  obtain ⟨-, n, -, hn, -⟩ := hint i.host List.prefix_rfl
  exact ⟨n, hn⟩

end Scanned

end DocExpand.Engine
