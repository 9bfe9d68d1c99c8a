import PositionalRecord.Value.Basic

/-!
# The text of a value

A value shows its content, and a hidden one only the label of its kind. The text is a document, so
it has a compact and an indented layout. `doc_eq` states the rule as one equation.
-/

namespace PositionalRecord

namespace Content

variable {ν μ : Type}

theorem doc_map (shown : μ → Doc) (f : ν → μ) (content : Content ν) :
    (content.map f).doc shown = content.doc fun v ↦ shown (f v) := by
  cases content with
  | option v => cases v <;> rfl
  | row r => simp [map, doc, Function.comp_def]
  | constants r => simp [map, doc, Row.collapse_map, Function.comp_def]
  | record r => simp [map, doc, Record.toList_mapStored, Function.comp_def]
  | pending p =>
    simp [map, doc, pendingDoc, Pending.map, Pending.prepended, Overwrites.map,
      Function.comp_def]
  | _ => simp [map, doc, Constant.map, Function.comp_def]

end Content

/-- What is shown of a value whose content may not be seen. -/
def hiddenDoc (label : String) : Doc := .atom ("<opaque " ++ label ++ ">")

namespace Value

def doc : Value → Doc :=
  fold fun _ isSealed content ↦
    if isSealed || content.isPending then hiddenDoc content.kind.label
    else content.doc fun shown ↦ shown ()

/-- A hidden value shows its label, any other value its content. -/
theorem doc_eq (value : Value) :
    value.doc =
      if value.isHidden then hiddenDoc value.label else value.content.doc doc := by
  rw [doc, fold_eq]
  simp only [Content.isPending_map, Content.kind_map, Content.doc_map]
  rfl

def text (layout : Layout) (value : Value) : String := value.doc.render layout

end Value

/-- The text of a content in a layout, whoever holds it. -/
def Content.text (layout : Layout) (content : Content Value) : String :=
  (content.doc Value.doc).render layout

end PositionalRecord
