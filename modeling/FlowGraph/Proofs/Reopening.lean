import FlowGraph.Proofs.ProjectText
import FlowGraph.Proofs.Restoring
import FlowGraph.Proofs.ScriptReload

/-! Documents that are built from a script, stored as the text of a project file and opened
again. -/
namespace FlowGraph.ProjectFile

/-- The file of a document that a script has built always stands for a document with the same
snapshot. Its text is read back as this file exactly if every number of the document is finite and
is what its own literal denotes, and the containers of the text are few enough; where a number is
not finite, or there are too many containers, the text is not read at all. -/
theorem reopened_of_load {text name : String} {h h₁ : History} {d : Document}
    {report : Script.LoadReport}
    (hload : Script.load .standard text (.blank (.ofName name)) h = (d, h₁, .ok report)) :
    (∃ e, (ofDocument d).toDocument = .ok e ∧ Snapshot.capture e = Snapshot.capture d) ∧
    (parse (ofDocument d).render = .ok (ofDocument d) ↔
      (∀ x ∈ (ofDocument d).numbers, x.isFinite = true ∧
        (Json.Literal.ofNumber x).number? = some x) ∧
      (ofDocument d).toJson.depth ≤ nestingLimit) ∧
    ((∃ x ∈ (ofDocument d).numbers, x.isFinite = false) ∨
      nestingLimit < (ofDocument d).toJson.depth →
      parse (ofDocument d).render = .error .malformed) := by
  obtain ⟨hdeclared, hplain, hd⟩ :=
    Script.declared_of_load (fun side id => (Node.representable_boundary side id).declared) hload
  have hfile : (ofDocument d).toDocument = .ok d.regroup := by
    rw [hd]
    exact toDocument_ofDocument hdeclared.wellFormed hplain
  refine ⟨⟨d.regroup, hfile, Snapshot.capture_regroup d⟩, ?_, fun hrefused => ?_⟩
  · simp only [parse_render_eq_self_iff, Number.reread_eq_self_iff]
  · refine parse_render_eq_error_iff.2 fun q hq => ?_
    obtain ⟨hfinite, hdepth⟩ := isFinite_of_parse_render hq
    rcases hrefused with ⟨x, hx, hinfinite⟩ | hdeep
    · simp [hfinite x hx] at hinfinite
    · omega

/-- A group with a node at a fraction inside: the stored document is opened again as it was. -/
theorem reopened_of_load_nested :
    let text := "group 1 \"B\" inputs [] outputs [] \x7b node 3 \"log\" at (-0.1, 2e9); \x7d"
    let loaded := Script.load .standard text (.blank (.ofName "")) (.start (.blank (.ofName "")) 2)
    let d := loaded.1
    loaded.2.2 = .ok ⟨⟨2, 1, 0⟩, 0⟩ ∧ parse (ofDocument d).render = .ok (ofDocument d) ∧
      ∃ e, (ofDocument d).toDocument = .ok e ∧ Snapshot.capture e = Snapshot.capture d := by
  intro text loaded d
  have hrun : loaded.2.2 = .ok ⟨⟨2, 1, 0⟩, 0⟩ ∧ ((ofDocument d).numbers.all fun x =>
      decide (x.isFinite = true ∧ (Json.Literal.ofNumber x).number? = some x)) = true ∧
      (ofDocument d).toJson.depth ≤ nestingLimit := by decide +kernel
  obtain ⟨hreport, hnumbers, hdepth⟩ := hrun
  obtain ⟨hsame, hread, -⟩ := reopened_of_load (Prod.ext rfl (Prod.ext rfl hreport))
  exact ⟨hreport, hread.2 ⟨fun x hx => of_decide_eq_true (List.all_eq_true.1 hnumbers x hx),
    hdepth⟩, hsame⟩

/-- A script may put a node at an infinite place, and then the stored document cannot be opened. -/
theorem infinite_place_not_reopened :
    let h := History.start (.blank (.ofName "")) 2
    let loaded := Script.load .standard "node 1 \"number\" at (inf, 0);" (.blank (.ofName "")) h
    loaded.2.2 = .ok ⟨⟨1, 0, 0⟩, 0⟩ ∧ parse (ofDocument loaded.1).render = .error .malformed := by
  intro h loaded
  have hrun : loaded.2.2 = .ok ⟨⟨1, 0, 0⟩, 0⟩ ∧
      ((ofDocument loaded.1).numbers.all fun x => x.isFinite) = false := by decide +kernel
  refine ⟨hrun.1, parse_render_eq_error_iff.2 fun q hq => ?_⟩
  have hfinite := List.all_eq_true.2 (isFinite_of_parse_render hq).1
  simp [hrun.2] at hfinite

end FlowGraph.ProjectFile
