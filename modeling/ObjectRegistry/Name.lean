import Std.Data.ExtTreeMap

namespace ObjectRegistry

abbrev Name := String

/-- A finite map on names. Two maps with the same entries are equal, and entries are listed by
the code points of their names. -/
abbrev NameMap (α : Type) := Std.ExtTreeMap Name α

namespace NameMap

variable {α : Type}

@[simp] theorem getElem?_insert (t : NameMap α) (k n : Name) (v : α) :
    (t.insert k v)[n]? = if k = n then some v else t[n]? := by
  simp only [Std.ExtTreeMap.getElem?_insert, Std.compare_eq_iff_eq]

@[simp] theorem getElem?_erase (t : NameMap α) (k n : Name) :
    (t.erase k)[n]? = if k = n then none else t[n]? := by
  simp only [Std.ExtTreeMap.getElem?_erase, Std.compare_eq_iff_eq]

@[simp] theorem getElem?_empty (n : Name) : (∅ : NameMap α)[n]? = none :=
  Std.ExtTreeMap.getElem?_empty

end NameMap

end ObjectRegistry
