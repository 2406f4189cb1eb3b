import ObjectRegistry.Answer
import ObjectRegistry.Links.Rename

namespace ObjectRegistry.Links

inductive Op where
  | link (name aka : Name)
  | unlink (aka : Name)
  | isAlias (n : Name)
  | hasAlias (name aka : Name)
  | aliasesOf (n : Name)
  | canonical (n : Name)
  | rename (f : Name → Option Name)
  | size
  | isEmpty

namespace Op

def answer (l : Links) : Op → Answer
  | link name aka => .settled ((l.link name aka).map fun _ => ())
  | unlink aka => .settled ((l.unlink aka).map fun _ => ())
  | isAlias n => .flag (l.isAlias n)
  | hasAlias name aka => .flag (l.hasAlias name aka)
  | aliasesOf n => .names (l.aliasesOf n)
  | canonical n => .text (l.canonical n)
  | rename f =>
    .settled (match (l.rename f).1 with
      | none => .ok ()
      | some fault => .error fault)
  | size => .count l.target.size
  | isEmpty => .flag l.target.isEmpty

def update (l : Links) : Op → Links
  | link name aka => (l.link name aka).toOption.getD l
  | unlink aka => (l.unlink aka).toOption.getD l
  | rename f => (l.rename f).2
  | _ => l

def events (l : Links) : Op → List Event
  | link name aka => l.linkEvents name aka
  | _ => []

end Op

end ObjectRegistry.Links
