import ObjectRegistry.Edges

namespace ObjectRegistry

namespace Adjacency

variable (a : Adjacency) (n k m : Name)

theorem members_insert (set : List Name) :
    members (a.insert n set) k = if n = k then set else members a k := by
  simp only [members, NameMap.getElem?_insert]
  split <;> rfl

theorem members_erase : members (a.erase n) k = if n = k then [] else members a k := by
  simp only [members, NameMap.getElem?_erase]
  split <;> rfl

theorem members_removeMember :
    members (removeMember a n m) k = if n = k then (members a n).erase m else members a k := by
  rw [removeMember]
  split
  · case h_1 he => rw [members_erase, he]
  · case h_2 he => rw [members_insert]

theorem members_removeMember_sublist :
    (members (removeMember a n m) k).Sublist (members a k) := by
  rw [members_removeMember]
  split
  · case isTrue hn =>
    subst hn
    exact List.erase_sublist
  · exact List.Sublist.refl _

theorem members_removeFrom_sublist (keys : List Name) :
    (members (removeFrom a keys m) k).Sublist (members a k) := by
  induction keys generalizing a with
  | nil => exact List.Sublist.refl _
  | cons n keys ih => exact (ih (removeMember a n m)).trans (members_removeMember_sublist a n k m)

theorem mem_removeFrom {s : Name} (hs : s ≠ m) (keys : List Name) :
    s ∈ members (removeFrom a keys m) k ↔ s ∈ members a k := by
  induction keys generalizing a with
  | nil => exact Iff.rfl
  | cons n keys ih =>
    refine (ih (removeMember a n m)).trans ?_
    rw [members_removeMember]
    by_cases hn : n = k
    · rw [if_pos hn, hn, List.mem_erase_of_ne hs]
    · rw [if_neg hn]

theorem mem_keys_of_members (h : members a k ≠ []) : k ∈ a.keys := by
  rw [Std.ExtTreeMap.mem_keys]
  by_cases hk : k ∈ a
  · exact hk
  · rw [members, Std.ExtTreeMap.getElem?_eq_none hk] at h
    exact absurd rfl h

end Adjacency

namespace Edges

open Adjacency

variable (e : Edges) (n k : Name)

@[simp] theorem dependentsOf_takeDependents :
    (e.takeDependents n).dependentsOf k = if n = k then [] else e.dependentsOf k :=
  members_erase _ _ _

@[simp] theorem containedIn_takeDependents :
    (e.takeDependents n).containedIn k = e.containedIn k := rfl

@[simp] theorem dependentsOf_takeContained :
    (e.takeContained n).dependentsOf k = e.dependentsOf k := rfl

@[simp] theorem containedIn_takeContained :
    (e.takeContained n).containedIn k = if n = k then [] else e.containedIn k :=
  members_erase _ _ _

theorem members_erase_sublist (a : Adjacency) :
    (members (a.erase n) k).Sublist (members a k) := by
  rw [members_erase]
  split
  · exact List.nil_sublist _
  · exact List.Sublist.refl _

theorem dependentsOf_forget_sublist :
    ((e.forget n).dependentsOf k).Sublist (e.dependentsOf k) :=
  (members_removeFrom_sublist _ _ _ _).trans (members_erase_sublist n k _)

theorem containedIn_forget_sublist :
    ((e.forget n).containedIn k).Sublist (e.containedIn k) :=
  (members_removeFrom_sublist _ _ _ _).trans (members_erase_sublist n k _)

theorem mem_dependentsOf_forget {s : Name} (hk : n ≠ k) (hs : s ≠ n) :
    s ∈ (e.forget n).dependentsOf k ↔ s ∈ e.dependentsOf k := by
  refine (mem_removeFrom _ k n hs _).trans ?_
  rw [members_erase, if_neg hk]
  exact Iff.rfl

theorem mem_containedIn_forget {s : Name} (hk : n ≠ k) (hs : s ≠ n) :
    s ∈ (e.forget n).containedIn k ↔ s ∈ e.containedIn k := by
  refine (mem_removeFrom _ k n hs _).trans ?_
  rw [members_erase, if_neg hk]
  exact Iff.rfl

/-- How many ends of edges there are at the names given. -/
def load : List Name → Edges → Nat
  | [], _ => 0
  | k :: keys, e => (e.dependentsOf k).length + (e.containedIn k).length + load keys e

def Within (keys : List Name) (e : Edges) : Prop :=
  ∀ k, k ∉ keys → e.dependentsOf k = [] ∧ e.containedIn k = []

theorem within_keys : e.Within (e.dependents.keys ++ e.contained.keys) := by
  intro k hk
  rw [List.mem_append, not_or] at hk
  constructor
  · by_cases h : e.dependentsOf k = []
    · exact h
    · exact absurd (mem_keys_of_members _ _ h) hk.1
  · by_cases h : e.containedIn k = []
    · exact h
    · exact absurd (mem_keys_of_members _ _ h) hk.2

/-- One set of edges has no more than another at any name. -/
def Fewer (e' e : Edges) : Prop :=
  ∀ k, (e'.dependentsOf k).Sublist (e.dependentsOf k) ∧
    (e'.containedIn k).Sublist (e.containedIn k)

theorem fewer_refl : e.Fewer e := fun _ => ⟨List.Sublist.refl _, List.Sublist.refl _⟩

theorem fewer_empty : Fewer {} e := fun _ => ⟨List.nil_sublist _, List.nil_sublist _⟩

theorem fewer_takeDependents : (e.takeDependents n).Fewer e :=
  fun k => ⟨members_erase_sublist n k _, List.Sublist.refl _⟩

theorem fewer_takeContained : (e.takeContained n).Fewer e :=
  fun k => ⟨List.Sublist.refl _, members_erase_sublist n k _⟩

theorem fewer_forget : (e.forget n).Fewer e :=
  fun k => ⟨dependentsOf_forget_sublist e n k, containedIn_forget_sublist e n k⟩

section Fewer

variable {e e' e'' : Edges} {keys : List Name} {n : Name}

theorem Fewer.trans (h : e''.Fewer e') (h' : e'.Fewer e) : e''.Fewer e :=
  fun k => ⟨(h k).1.trans (h' k).1, (h k).2.trans (h' k).2⟩

theorem Fewer.within (h : e'.Fewer e) (hw : e.Within keys) : e'.Within keys := by
  intro k hk
  obtain ⟨hd, hc⟩ := hw k hk
  have hs := h k
  rw [hd, hc, List.sublist_nil, List.sublist_nil] at hs
  exact hs

theorem Fewer.degree_le (h : e'.Fewer e) (k : Name) :
    (e'.dependentsOf k).length + (e'.containedIn k).length ≤
      (e.dependentsOf k).length + (e.containedIn k).length := by
  have hd := (h k).1.length_le
  have hc := (h k).2.length_le
  omega

theorem load_cons (k : Name) :
    e.load (k :: keys) = (e.dependentsOf k).length + (e.containedIn k).length + e.load keys := rfl

theorem Fewer.load_le (h : e'.Fewer e) : e'.load keys ≤ e.load keys := by
  induction keys with
  | nil => exact Nat.le_refl 0
  | cons k keys ih =>
    have hk := h.degree_le k
    simp only [load_cons]
    omega

theorem Fewer.load_add_le {loss : Nat} (h : e'.Fewer e) (hw : e.Within keys)
    (hn : (e'.dependentsOf n).length + (e'.containedIn n).length + loss ≤
      (e.dependentsOf n).length + (e.containedIn n).length) :
    e'.load keys + loss ≤ e.load keys := by
  by_cases hk : n ∈ keys
  · clear hw
    induction keys with
    | nil => cases hk
    | cons k keys ih =>
      simp only [load_cons]
      obtain rfl | hk := List.mem_cons.1 hk
      · have hrest : e'.load keys ≤ e.load keys := h.load_le
        omega
      · have hrest := ih hk
        have hle := h.degree_le k
        omega
  · obtain ⟨hd, hc⟩ := hw n hk
    have hle : e'.load keys ≤ e.load keys := h.load_le
    simp only [hd, hc, List.length_nil] at hn
    omega

end Fewer

end Edges

end ObjectRegistry
