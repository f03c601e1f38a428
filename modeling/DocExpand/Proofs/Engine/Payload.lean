/-
  DocExpand.Proofs.Engine.Payload — which import an invocation has fetched.

  The payload of an import is fetched when its document is scanned, for the argument as it is
  written there (`Scanned.fetched`). Until its turn the pass may change that argument. A string
  that is written stays, and what is neither a string nor an invocation does not become one
  (`Pass.text_kept`); so the payload is still the one that the argument asks for, except where
  the argument was an invocation and has become a string: what is imported then goes by the
  pointer of the object, not by the name that the string gives (`payload_written`).
-/

import DocExpand.Proofs.Engine.Paths

namespace DocExpand.Engine

open Edit

variable {e : Engine} {doc now value written : Json} {found before after : List Invocation} {i : Invocation}
  {entries : Members ByteArray}

theorem text?_of_kind {j : Json} (h : j.kind ≠ .string) : j.text? = none := by
  cases j with
  | str s => exact absurd rfl h
  | null | bool _ | num _ | arr _ | obj _ => rfl

/-- Imports held by name differ only where the text of the argument does. -/
theorem ofEntries_congr {a b : Json} (h : a.text? = b.text?) (host : Locator) :
    Imports.ofEntries entries host a = Imports.ofEntries entries host b := by
  rw [Imports.ofEntries, Imports.ofEntries, h]

namespace Pass

variable (h : e.Pass doc found) (hs : Invocation.schedule found = some (before ++ i :: after))

include h hs

/-- Nothing done before stands at the key of an invocation or above it, unless the argument is one itself. -/
theorem branch_clear (hplain : ∀ a ∈ found, a.host ≠ i.branch) : Clear before i.branch := by
  have hmem : ∀ b ∈ before ++ i :: after, b ∈ found := fun b hb => (Invocation.mem_schedule hs).mp hb
  have hi := hmem i (by simp)
  obtain ⟨key, hbranch⟩ := h.toScanned.branch_eq hi
  rw [hbranch] at hplain ⊢
  refine (h.clear hs).child (List.prefix_rfl) (fun a ha => hplain a (hmem a (List.mem_append_left _ ha))) fun a ha => ?_
  rw [← hbranch]
  exact h.apart a (hmem a (List.mem_append_left _ ha)) i hi

/-- A written argument that is not an invocation keeps its text until its turn comes. -/
theorem text_kept (hd : doc.Sound) (hr : (e.execute before).runOn doc = (.ok (), now))
    (hplain : ∀ a ∈ found, a.host ≠ i.branch) (hw : Locator.walk i.branch doc = some written)
    (hv : Locator.resolve i.branch now = some value) : value.text? = written.text? := by
  have hclear := h.branch_clear hs hplain
  by_cases hstring : written.kind = .string
  · cases written with
    | null | bool _ | num _ | arr _ | obj _ => cases hstring
    | str name =>
      -- there is nothing beneath a string
      have hbeneath : ∀ a ∈ before, ¬ i.branch <+: a.host := by
        intro a ha hp
        have haf : a ∈ found := (Invocation.mem_schedule hs).mp (List.mem_append_left _ ha)
        obtain ⟨ms, hms⟩ := h.toScanned.host_walk haf
        obtain ⟨r, hr⟩ := hp
        rw [← hr, Locator.walk_append, hw] at hms
        cases r <;> cases hms
      have hsame := (h.course hs).untouched hd rfl hr (p := i.branch) fun a ha =>
        ⟨hclear.above a ha, hbeneath a ha, hclear.taken a ha⟩
      rw [Locator.resolve_of_walk (hsame.trans hw)] at hv
      cases hv
      rfl
  · obtain ⟨n, hn, hkept⟩ := ((h.during hd hs hr).retains _ hclear).there _ hw
    rw [Locator.resolve_of_walk hn] at hv
    cases hv
    rw [text?_of_kind hstring, text?_of_kind (hkept.kind ▸ hstring)]

end Pass

/-- The payload is what the argument asked for when it was scanned. When the turn of the import has come it is still
    what the argument asks for, unless the argument was an invocation and is a string now. -/
theorem payload_written (hvalid : e.config.fault? = none) (himports : e.imports = Imports.ofEntries entries)
    (hd : doc.Sound) (ho : doc.Ordered) (hscan : e.scan doc = .ok found)
    (hs : Invocation.schedule found = some (before ++ i :: after)) (hload : i.directive.verb = .load)
    (hr : (e.execute before).runOn doc = (.ok (), now)) :
    (∃ written, Locator.resolve i.branch doc = some written ∧ i.payload = e.imports i.host written) ∧
      (Apart found → ∀ value, Locator.resolve i.branch now = some value →
        (value.text? = none ∨ ∀ a ∈ found, a.host ≠ i.branch) → i.payload = e.imports i.host value) ∧
      ∀ a ∈ found, a.host = i.branch → i.payload = Members.get? i.host.pointer entries := by
  have h : e.Scanned doc found := ⟨ho, suffix_of_fault? hvalid, hscan⟩
  have hi : i ∈ found := (Invocation.mem_schedule hs).mp (by simp)
  obtain ⟨written, hw, hpayload⟩ := h.fetched hi
  rw [if_pos hload] at hpayload
  -- an argument that is an invocation is an object, and an object names no import
  have hnested : ∀ a ∈ found, a.host = i.branch → written.text? = none := by
    intro a ha hat
    obtain ⟨ms, hms⟩ := h.host_walk ha
    rw [hat, hw] at hms
    cases hms
    rfl
  refine ⟨⟨written, Locator.resolve_of_walk hw, hpayload⟩, fun hapart value hv hcase => ?_, fun a ha hat => ?_⟩
  · have hpass : e.Pass doc found := ⟨ho, suffix_of_fault? hvalid, hscan, hapart⟩
    have htext : value.text? = written.text? := by
      by_cases hplain : ∀ a ∈ found, a.host ≠ i.branch
      · exact hpass.text_kept hs hd hr hplain hw hv
      · obtain ⟨a, ha, hat⟩ : ∃ a ∈ found, a.host = i.branch := by simpa using hplain
        rw [hcase.resolve_right hplain, hnested a ha hat]
    rw [hpayload, himports, ofEntries_congr htext]
  · rw [hpayload, himports, Imports.ofEntries, hnested a ha hat, Option.getD_none]

/-- One import, and a parameter that has its name. -/
def lender : Engine := ⟨{ parameters := [("p", .str "base")] }, Imports.ofEntries [("base", "\x7b\"x\":1\x7d".toUTF8)]⟩

/-- An import by its name, with a look-up beside the argument. -/
def literal : Json := .obj [("a", .obj [
  ("b", .obj [("kubegen.String.Lookup", .str "p")]), ("kubegen.Object.LoadJSON", .str "base")])]

theorem payload_written_literal : ∃ load name now,
    lender.scan literal = .ok [load, name] ∧ Invocation.schedule [load, name] = some [name, load] ∧
      (lender.execute [name]).runOn literal = (.ok (), now) ∧
      Locator.resolve load.branch now = some (.str "base") ∧ load.payload = lender.imports load.host (.str "base") := by
  have hrun : ∃ load name now, lender.scan literal = .ok [load, name] ∧
      Invocation.schedule [load, name] = some ([name] ++ load :: []) ∧ load.directive.verb = .load ∧
      (lender.execute [name]).runOn literal = (.ok (), now) ∧ Locator.resolve load.branch now = some (.str "base") ∧
      ∀ a ∈ [load, name], a.host ≠ load.branch :=
    ⟨_, _, _, rfl, by decide +kernel, rfl, rfl, rfl, by decide +kernel⟩
  obtain ⟨load, name, now, hscan, hs, hload, hr, hv, hplain⟩ := hrun
  obtain ⟨-, hsame, -⟩ := payload_written (by decide +kernel) rfl (by decide) (by decide) hscan hs hload hr
  have hapart : Apart [load, name] := apart_of_default rfl hscan
  exact ⟨load, name, now, hscan, hs, hr, hv, hsame hapart _ hv (.inr hplain)⟩

/-- The name of an import, looked up. -/
def computed : Json := .obj [("a", .obj [("kubegen.Object.LoadJSON", .obj [("kubegen.String.Lookup", .str "p")])])]

/-- At its turn the argument is the name of an import, but nothing was fetched for the invocation that stood there. -/
theorem computed_name_unfetched :
    lender.config.fault? = none ∧ computed.Sound ∧ computed.Ordered ∧ ∃ load name now,
      lender.scan computed = .ok [load, name] ∧ Invocation.schedule [load, name] = some [name, load] ∧
        load.directive.verb = .load ∧ (lender.execute [name]).runOn computed = (.ok (), now) ∧
        Locator.resolve load.branch now = some (.str "base") ∧
        load.payload ≠ lender.imports load.host (.str "base") := by
  have hnone : (lender.bind computed [.key "a"] ⟨.object, .c, .load⟩ "kubegen.Object.LoadJSON"
      (.obj [("kubegen.String.Lookup", .str "p")])).payload = none := by rfl
  have hsome : lender.imports [.key "a"] (.str "base") = some "\x7b\"x\":1\x7d".toUTF8 := by rfl
  refine ⟨by decide +kernel, by decide, by decide, _, _, _, rfl, by decide +kernel, rfl, rfl, rfl, fun h => ?_⟩
  cases hnone.symm.trans (h.trans hsome)

end DocExpand.Engine
