import ObjectRegistry.Proofs.Chains
import ObjectRegistry.Proofs.Mirror

namespace ObjectRegistry.Edges

variable {e : Edges}

/-- What comes of no edges by any calls that record and forget them, so long as a name that is
recorded as contained is no alias at that moment. -/
inductive Recorded : Edges → Prop where
  | empty : Recorded {}
  | addDependency {e : Edges} (h : Recorded e) (links : Links) (n dependent : Name) :
    Recorded ((Op.addDependency n dependent).update links e)
  | addContainment {e : Edges} (h : Recorded e) (links : Links) (owner part : Name)
    (hp : links.isAlias part = false) : Recorded ((Op.addContainment owner part).update links e)
  | forget {e : Edges} (h : Recorded e) (links : Links) (n : Name) :
    Recorded ((Op.forget n).update links e)
  | clear {e : Edges} (h : Recorded e) (links : Links) : Recorded (Op.clear.update links e)

theorem Recorded.mirrored (h : e.Recorded) : e.Mirrored := by
  induction h with
  | empty => exact mirrored_empty
  | addDependency _ links n dependent ih => exact ih.depend (links.canonical n) dependent
  | addContainment _ links owner part hp ih =>
    exact ih.addContainment owner (Links.canonical_of_isAlias hp)
  | @forget e _ links n ih =>
    rw [Op.update, ih.forget_eq_without n]
    exact ih.without [n]
  | clear => exact mirrored_empty

/-- On all edges that have been recorded and forgotten by calls, circles and loops among them, to
forget a name comes to a look at every set: the set kept under the name is gone, the name is gone
from each other set, whose members keep their order, and no set is left empty. -/
theorem forget_is_a_full_scan (h : e.Recorded) (links : Links) (n : Name) :
    (Op.forget n).update links e = e.without [n] :=
  h.mirrored.forget_eq_without n

def interlaced : Edges :=
  (Op.addContainment "c" "a").update {} ((Op.addDependency "b" "d").update {}
    ((Op.addDependency "b" "a").update {} ((Op.addDependency "a" "b").update {}
      ((Op.addDependency "a" "a").update {} {}))))

theorem forget_is_a_full_scan_interlaced :
    interlaced.Recorded ∧ (Op.forget "a").update {} interlaced = interlaced.without ["a"] ∧
      ((Op.forget "a").update {} interlaced).dependentsOf "b" = ["d"] ∧
      ((Op.forget "a").update {} interlaced).contained.isEmpty = true := by
  have h : interlaced.Recorded :=
    ((((Recorded.empty.addDependency {} "a" "a").addDependency {} "a" "b").addDependency {} "b"
      "a").addDependency {} "b" "d").addContainment {} "c" "a" (by decide)
  exact ⟨h, forget_is_a_full_scan h {} "a", by decide, by decide⟩

end ObjectRegistry.Edges
