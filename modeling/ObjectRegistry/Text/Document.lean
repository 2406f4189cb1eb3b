namespace ObjectRegistry.Text

inductive Document where
  | null
  | flag (value : Bool)
  | number (value : Int)
  | text (value : String)
  | list (items : List Document)
  | record (fields : List (String × Document))

namespace Document

def ofList {α : Type} (f : α → Document) (l : List α) : Document := .list (l.map f)

def names (l : List String) : Document := ofList .text l

def ofOption {α : Type} (f : α → Document) : Option α → Document
  | none => .null
  | some a => f a

/-- A list by its length and its two ends; anything else as it is. -/
def ends : Document → Document
  | list items =>
    .record
      [("len", .number items.length), ("first", items.head?.getD .null),
       ("last", items.getLast?.getD .null)]
  | d => d

def brief : Document → Document
  | record fields => .record (fields.map fun (name, d) => (name, d.ends))
  | d => d.ends

end Document

end ObjectRegistry.Text
