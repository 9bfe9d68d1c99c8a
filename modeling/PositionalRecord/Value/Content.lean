import PositionalRecord.Record.Basic
import PositionalRecord.Value.Scalar

/-!
# Contents of values

The content of a value is a scalar, or a container of values. `Content ν` is written over the type
`ν` of the values inside, so that what is done to the values inside and what is done to the
container around them are separate: kinds, equality and texts of contents take the equality or the
text of the values inside as a function, and call it only on values that count.
-/

namespace PositionalRecord

/-- Contents with values `ν` inside. -/
inductive Content (ν : Type)
  | scalar (s : Scalar)
  | boxed (v : ν)
  | list (vs : List ν)
  | pair (left right : ν)
  | option (v : Option ν)
  | constant (k : Constant ν)
  | row (r : Row ν)
  | constants (r : Row (Constant ν))
  | record (r : Record ν)
  | pending (p : Pending ν)

namespace Content

variable {ν μ : Type}

/-- The kind of a content. It does not depend on the values inside. -/
def kind : Content ν → Kind
  | .scalar s => s.kind
  | .boxed _ => .boxed
  | .list _ => .list
  | .pair .. => .pair
  | .option _ => .option
  | .constant _ => .constant
  | .row _ => .row
  | .constants _ => .constants
  | .record _ => .record
  | .pending _ => .pending

/-- Whether a content can neither be shown nor compared, whatever it holds: pending changes mean
nothing without the row they are for. -/
def isPending : Content ν → Bool
  | .pending _ => true
  | _ => false

/-- Acts on the values inside, also on those that a pending change hides. -/
def map (f : ν → μ) : Content ν → Content μ
  | .scalar s => .scalar s
  | .boxed v => .boxed (f v)
  | .list vs => .list (vs.map f)
  | .pair left right => .pair (f left) (f right)
  | .option v => .option (v.map f)
  | .constant k => .constant (k.map f)
  | .row r => .row (r.map f)
  | .constants r => .constants (r.map (Constant.map f))
  | .record r => .record (r.mapStored f)
  | .pending p => .pending (p.map f)

@[simp]
theorem isPending_map (f : ν → μ) (content : Content ν) :
    (content.map f).isPending = content.isPending := by
  cases content <;> rfl

@[simp]
theorem kind_map (f : ν → μ) (content : Content ν) : (content.map f).kind = content.kind := by
  cases content <;> rfl

/-- The values inside, also those that a pending change hides. -/
def stored : Content ν → List ν
  | .scalar _ => []
  | .boxed v => [v]
  | .list vs => vs
  | .pair left right => [left, right]
  | .option v => v.toList
  | .constant k => [k.inner]
  | .row r => r.toList
  | .constants r => r.collapse
  | .record r => r.row.toList ++ r.pending.overwrites.values ++ r.pending.buffer.toList
  | .pending p => p.overwrites.values ++ p.buffer.toList

/-! ## Equality -/

/-- Whether the items of two lists are related position by position until one list ends. -/
def relateFront (related : ν → μ → Bool) : List ν → List μ → Bool
  | v :: vs, w :: ws => related v w && relateFront related vs ws
  | _, _ => true

/-- Whether two lists have one length and related items at every position. The lengths are
compared first, so lists of different lengths are told apart without comparing items. -/
def relateEach (related : ν → μ → Bool) (vs : List ν) (ws : List μ) : Bool :=
  vs.length == ws.length && relateFront related vs ws

/-- Whether two contents are of one kind and hold related values. Records are compared by their
current fields, whatever is pending on them. -/
def relate (related : ν → μ → Bool) : Content ν → Content μ → Bool
  | .scalar s, .scalar t => s.equal t
  | .boxed v, .boxed w => related v w
  | .list vs, .list ws => relateEach related vs ws
  | .pair v v', .pair w w' => related v w && related v' w'
  | .option v, .option w => relateEach related v.toList w.toList
  | .constant k, .constant l => related k.inner l.inner
  | .row r, .row s => relateEach related r.toList s.toList
  | .constants r, .constants s => relateEach related r.collapse s.collapse
  | .record r, .record s => relateEach related r.toList s.toList
  | _, _ => false

/-! ## Text -/

def constantDoc (body : Doc) : Doc := .applied "K" body

/-- The document of pending changes: the overwrites under their positions, and the number of
prepended fields, which are not shown themselves. -/
def pendingDoc (shown : ν → Doc) (pending : Pending ν) : Doc :=
  .fields "Diff"
    [("updated", .entries (pending.overwrites.map shown).entries),
     ("new", .atom (toString pending.prepended ++ " new"))]

/-- The document of a content whose values are shown like this. A record shows its current
fields, whatever is pending on it. -/
def doc (shown : ν → Doc) : Content ν → Doc
  | .scalar s => s.doc
  | .boxed v => shown v
  | .list vs => .list (vs.map shown)
  | .pair left right => .pair (shown left) (shown right)
  | .option (some v) => .applied "Some" (shown v)
  | .option none => .atom "None"
  | .constant k => constantDoc (shown k.inner)
  | .row r => .list (r.toList.map shown)
  | .constants r => .list (r.collapse.map fun v ↦ constantDoc (shown v))
  | .record r => .list (r.toList.map shown)
  | .pending p => pendingDoc shown p

end Content

end PositionalRecord
