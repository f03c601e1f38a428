/-
  DocExpand.Proofs.Engine.Ties — how ties are broken does not matter.

  A pass can take the invocations that a scan found in any order with deeper ones first and
  all that stands inside an argument sibling before its consumer (`Arranged`); the schedule
  is one of these orders where the invocations are apart (`Pass.course`). Carried out in any
  of them, the invocations leave the strict value of the document, or fail where it has none
  (`Course.execute_order`). So two such orders succeed on the same documents and leave the
  same ones (`execute_arranged`), whatever they do with the phases and with what was found
  first.
-/

import DocExpand.Proofs.Engine.Pass

namespace DocExpand.Engine

variable {e : Engine} {doc : Json} {found a b : List Invocation}

/-- Any two arranged orders of what was found succeed together, and then with the same document. -/
theorem execute_arranged (hvalid : e.config.fault? = none) (hd : Opened doc) (ho : doc.Ordered)
    (hscan : e.scan doc = .ok found) (ha : Arranged found a) (hb : Arranged found b) (result : Json) :
    (e.execute a).runOn doc = (.ok (), result) ↔ (e.execute b).runOn doc = (.ok (), result) := by
  have hscanned : e.Scanned doc found := ⟨ho, suffix_of_fault? hvalid, hscan⟩
  have hfirst : e.Course doc found a := ⟨hscanned, ha⟩
  have hsecond : e.Course doc found b := ⟨hscanned, hb⟩
  rw [hfirst.execute_order (opened_sound hd), hsecond.execute_order (opened_sound hd)]

/-- A choice beside a string directive, which is of a later phase. -/
def tied : Json := .obj [
  ("a", .obj [("kubegen.String.AsJSON", .str "x")]),
  ("b", .obj [("kubegen.Null.If", .bool true), ("then", .str "y")])]

theorem execute_arranged_phases :
    plain.config.fault? = none ∧ Opened tied ∧ tied.Ordered ∧ ∃ text choice, plain.scan tied = .ok [text, choice] ∧
      Invocation.schedule [text, choice] = some [choice, text] ∧ ∀ result,
        (plain.execute [text, choice]).runOn tied = (.ok (), result) ↔
          (plain.execute [choice, text]).runOn tied = (.ok (), result) := by
  have hvalid : plain.config.fault? = none := by decide +kernel
  have hd : Opened tied := .inl ⟨tied, accept_ok.mpr ⟨rfl, by decide⟩⟩
  have ho : tied.Ordered := by decide
  have hscan : ∃ text choice, plain.scan tied = .ok [text, choice] ∧
      Invocation.schedule [text, choice] = some [choice, text] ∧ text.depth = choice.depth ∧
      text.argumentSibling? = none ∧ choice.argumentSibling? = none := ⟨_, _, rfl, by decide +kernel⟩
  obtain ⟨text, choice, hscan, hschedule, hdepth, htext, hchoice⟩ := hscan
  have harranged : Arranged [text, choice] [text, choice] := by
    refine ⟨.refl _, ?_, ?_⟩
    · simp [Invocation.Falling, hdepth]
    · simp [htext]
  have hswapped : Arranged [text, choice] [choice, text] := by
    refine ⟨.swap text choice [], ?_, ?_⟩
    · simp [Invocation.Falling, hdepth]
    · simp [hchoice]
  exact ⟨hvalid, hd, ho, text, choice, hscan, hschedule, execute_arranged hvalid hd ho hscan harranged hswapped⟩

end DocExpand.Engine
