import ObjectRegistry.Links.Basic

/-!
Renaming all aliases and targets at once. The links are taken one at a time in an order of the
caller's choice, each against the links as the earlier ones left them, and the first clash ends
the work: what was renamed until then stays renamed.
-/

namespace ObjectRegistry.Links

/-- Renames the link from `aka` to `name`. A link that loses an end, or whose ends fall
together, is dropped. A circle is looked for only where the alias itself moves. -/
def renameLink (f : Name → Option Name) (aka name : Name) (l : Links) : Except Fault Links :=
  match f aka, f name with
  | some newAlias, some newName =>
    if newAlias = newName then .ok (l.erase aka)
    else if newAlias = aka then
      .ok (if newName = name then l else l.insert newName aka)
    else
      match l.target[newAlias]? with
      | some existing =>
        if existing = newName then .ok (l.erase aka)
        else .error (.aliasTaken newAlias newName name)
      | none =>
        if l.hasAlias newAlias newName then .error (.circularAlias newAlias newName)
        else .ok ((l.erase aka).insert newName newAlias)
  | _, _ => .ok (l.erase aka)

/-- Renames the links of `order` in turn, up to the first clash. -/
def renameAll (f : Name → Option Name) : List (Name × Name) → Links → Option Fault × Links
  | [], l => (none, l)
  | (aka, name) :: rest, l =>
    match renameLink f aka name l with
    | .ok l => renameAll f rest l
    | .error fault => (some fault, l)

def rename (f : Name → Option Name) (l : Links) : Option Fault × Links :=
  renameAll f l.target.toList l

end ObjectRegistry.Links
