import LiquidTemplate.Proofs.Arena.Simulation
import LiquidTemplate.Proofs.Json.Objects
import LiquidTemplate.Proofs.Json.Unique

/-!
# A text has one arena

The text of a document gives back its JSON form, that gives back the outline, and the numbers of the
nodes follow from the outline. So templates whose documents are written alike have the same arena
(`Document.records_eq_of_render`), even where the templates differ.
-/

namespace LiquidTemplate.Document

/-- The JSON form of a document gives back its outline. -/
theorem outline_eq_of_toJson? {d₁ d₂ : Document} {j : Json} (h₁ : d₁.toJson? = some j)
    (h₂ : d₂.toJson? = some j) : d₁.outline = d₂.outline := by
  have hframed : [d₁.outline.framed] = [d₂.outline.framed] := by
    rw [← objects_toJson? h₁, ← objects_toJson? h₂]
  exact Tree.framed_injective (List.cons.inj hframed).1

/-- The records depend on nothing but the outline. -/
theorem records_eq_of_outline {d₁ d₂ : Document} (h : d₁.outline = d₂.outline) :
    d₁.records = d₂.records := by
  simp only [records, numbered, h]

/-- **The text of a document determines its arena.** Where two templates are accepted and their
documents have the same text in one layout, the arenas that are built for them are the same: they
have as many records, and the records of a number agree in kind, every field, position, parent and
what they hold. -/
theorem records_eq_of_render {s₁ s₂ text : Text} {d₁ d₂ : Document} {layout : Json.Layout}
    (h₁ : parse s₁ = .ok d₁) (h₂ : parse s₂ = .ok d₂) (ht₁ : d₁.render? layout = some text)
    (ht₂ : d₂.render? layout = some text) :
    Builder.build s₁ = .ok d₁.records ∧ Builder.build s₂ = .ok d₂.records ∧
      d₁.records = d₂.records := by
  obtain ⟨j, hj, hjtext⟩ := Option.map_eq_some_iff.1 ht₁
  obtain ⟨k, hk, hktext⟩ := Option.map_eq_some_iff.1 ht₂
  have hjk : j = k := Json.render_injective (hjtext.trans hktext.symm)
  rw [← hjk] at hk
  refine ⟨by rw [Builder.build_eq, h₁], by rw [Builder.build_eq, h₂], ?_⟩
  exact records_eq_of_outline (outline_eq_of_toJson? hj hk)

/-- Two templates that differ in blanks that no node covers. -/
theorem records_eq_of_render_blanks :
    ∃ d₁ d₂, parse "<b c='d'> {% if e %} {% endif %}</b>".toList = .ok d₁ ∧
      parse "<b c='d'>\n{% if e %}\t{% endif %}</b>".toList = .ok d₂ ∧
      d₁.records = d₂.records ∧ d₁.records.length = 6 := by
  have htexts : (parse "<b c='d'> {% if e %} {% endif %}</b>".toList).toOption.bind
      (fun d => d.render? .indented) =
      (parse "<b c='d'>\n{% if e %}\t{% endif %}</b>".toList).toOption.bind
        (fun d => d.render? .indented) := by
    decide +kernel
  have hsome₁ : (parse "<b c='d'> {% if e %} {% endif %}</b>".toList).toOption.map
      (fun d => ((d.render? .indented).isSome, d.records.length)) = some (true, 6) := by
    decide +kernel
  have hsome₂ : (parse "<b c='d'>\n{% if e %}\t{% endif %}</b>".toList).toOption.map
      (fun _ => true) = some true := by
    decide +kernel
  obtain ⟨d₁, hd₁, h₁⟩ := exists_of_map_parse hsome₁
  obtain ⟨d₂, hd₂, -⟩ := exists_of_map_parse hsome₂
  obtain ⟨hrender, hlength⟩ := Prod.mk.inj h₁
  obtain ⟨text, ht₁⟩ := Option.isSome_iff_exists.1 hrender
  rw [hd₁, hd₂] at htexts
  have ht₂ : d₂.render? .indented = some text := htexts.symm.trans ht₁
  exact ⟨d₁, d₂, hd₁, hd₂, (records_eq_of_render hd₁ hd₂ ht₁ ht₂).2.2, hlength⟩

end LiquidTemplate.Document
