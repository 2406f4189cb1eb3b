import Mathlib.Data.List.Nodup
import ObjectRegistry.Proofs.Adjacency

namespace ObjectRegistry

theorem erase_eq_filter_ne {l : List Name} (h : l.Nodup) (m : Name) :
    l.erase m = l.filter (· ≠ m) := by
  rw [h.erase_eq_filter]
  simp only [ne_eq, decide_not]
  rfl

theorem filter_not_mem_cons (l gone : List Name) (m : Name) :
    (l.filter (· ∉ gone)).filter (· ≠ m) = l.filter (· ∉ m :: gone) := by
  rw [List.filter_filter]
  congr 1
  funext x
  simp only [List.mem_cons, not_or, ne_eq, Bool.decide_and, decide_not]

namespace Adjacency

variable {a b : Adjacency} {n k m x : Name}

def Proper (a : Adjacency) : Prop := ∀ n, a[n]? ≠ some [] ∧ (members a n).Nodup

theorem proper_empty : Proper ∅ := fun n => by
  rw [members, NameMap.getElem?_empty]
  exact ⟨(Option.some_ne_none []).symm, List.nodup_nil⟩

theorem Proper.getElem? (h : Proper a) (n : Name) :
    a[n]? = if members a n = [] then none else some (members a n) := by
  have hne := (h n).1
  rw [members]
  cases hn : a[n]? with
  | none => rfl
  | some set =>
    rw [hn] at hne
    rw [Option.getD_some, if_neg fun hset => hne (congrArg some hset)]

theorem Proper.ext (ha : Proper a) (hb : Proper b) (h : ∀ n, members a n = members b n) : a = b :=
  Std.ExtTreeMap.ext_getElem? fun n => by rw [ha.getElem?, hb.getElem?, h]

theorem Proper.insert (h : Proper a) {set : List Name} (hne : set ≠ []) (hset : set.Nodup) :
    Proper (a.insert n set) := by
  intro k
  rw [members_insert, NameMap.getElem?_insert]
  split
  · exact ⟨fun he => hne (Option.some.inj he), hset⟩
  · exact h k

theorem Proper.erase (h : Proper a) (n : Name) : Proper (a.erase n) := by
  intro k
  rw [members_erase, NameMap.getElem?_erase]
  split
  · exact ⟨(Option.some_ne_none []).symm, List.nodup_nil⟩
  · exact h k

theorem Proper.add (h : Proper a) (n m : Name) : Proper (add a n m) := by
  rw [Adjacency.add]
  split
  · exact h
  · case isFalse hm =>
    refine h.insert (List.concat_ne_nil m _) ?_
    rw [← List.concat_eq_append]
    exact (h n).2.concat hm

theorem Proper.removeMember (h : Proper a) (n m : Name) : Proper (removeMember a n m) := by
  rw [Adjacency.removeMember]
  split
  · exact h.erase n
  · case h_2 hne =>
    exact h.insert hne ((h n).2.erase m)

theorem Proper.removeFrom (h : Proper a) (keys : List Name) (m : Name) :
    Proper (removeFrom a keys m) := by
  induction keys generalizing a with
  | nil => exact h
  | cons n keys ih => exact ih (h.removeMember n m)

theorem members_add :
    members (add a n m) k =
      if n = k ∧ m ∉ members a k then members a k ++ [m] else members a k := by
  rw [add]
  by_cases hn : n = k
  · subst hn
    by_cases hm : m ∈ members a n
    · simp only [hm, not_true_eq_false, and_false, ↓reduceIte]
    · simp only [hm, not_false_eq_true, and_true, ↓reduceIte, members_insert]
  · simp only [hn, false_and, ↓reduceIte]
    split
    · rfl
    · rw [members_insert, if_neg hn]

theorem mem_add : x ∈ members (add a n m) k ↔ x ∈ members a k ∨ k = n ∧ x = m := by
  rw [members_add]
  split
  · case isTrue h =>
    rw [List.mem_append, List.mem_singleton, h.1, eq_self, true_and]
  · case isFalse h =>
    refine ⟨.inl, fun hx => hx.elim id ?_⟩
    rintro ⟨rfl, rfl⟩
    exact Classical.byContradiction fun hm => h ⟨rfl, hm⟩

theorem Proper.members_removeFrom (h : Proper a) (keys : List Name) :
    members (Adjacency.removeFrom a keys m) k =
      if k ∈ keys then (members a k).filter (· ≠ m) else members a k := by
  induction keys generalizing a with
  | nil => rfl
  | cons n keys ih =>
    refine (ih (h.removeMember n m)).trans ?_
    rw [members_removeMember, erase_eq_filter_ne (h n).2]
    by_cases hn : n = k
    · subst hn
      simp only [List.mem_cons, true_or, ↓reduceIte, List.filter_filter, Bool.and_self, ite_self]
    · simp only [hn, Ne.symm hn, List.mem_cons, false_or, ↓reduceIte]

def without (a : Adjacency) (gone : List Name) : Adjacency :=
  a.filterMap fun n set =>
    let rest := set.filter (· ∉ gone)
    if n ∈ gone ∨ rest = [] then none else some rest

theorem getElem?_without (gone : List Name) :
    (without a gone)[n]? =
      if n ∈ gone ∨ (members a n).filter (· ∉ gone) = [] then none
      else some ((members a n).filter (· ∉ gone)) := by
  rw [members, without, Std.ExtTreeMap.getElem?_filterMap']
  cases a[n]? with
  | none => simp only [Option.bind_none, Option.getD_none, List.filter_nil, or_true, ↓reduceIte]
  | some set => rfl

theorem members_without (gone : List Name) :
    members (without a gone) n = if n ∈ gone then [] else (members a n).filter (· ∉ gone) := by
  rw [members, getElem?_without]
  by_cases hn : n ∈ gone
  · simp only [hn, true_or, ↓reduceIte, Option.getD_none]
  · by_cases hr : (members a n).filter (· ∉ gone) = []
    · simp only [hn, hr, or_true, ↓reduceIte, Option.getD_none]
    · simp only [hn, hr, or_self, ↓reduceIte, Option.getD_some]

theorem mem_without {gone : List Name} :
    x ∈ members (without a gone) n ↔ x ∈ members a n ∧ n ∉ gone ∧ x ∉ gone := by
  rw [members_without]
  by_cases hn : n ∈ gone
  · simp only [hn, ↓reduceIte, List.not_mem_nil, not_true_eq_false, false_and, and_false]
  · simp only [hn, ↓reduceIte, List.mem_filter, decide_eq_true_eq, not_false_eq_true, true_and]

theorem Proper.without (h : Proper a) (gone : List Name) : Proper (Adjacency.without a gone) := by
  intro n
  rw [members_without, getElem?_without]
  constructor
  · split
    · nofun
    · case isFalse hn => exact fun he => hn (.inr (Option.some.inj he))
  · split
    · exact List.nodup_nil
    · exact (h n).2.filter _

theorem Proper.removeFrom_erase (h : Proper a) {keys : List Name}
    (hkeys : ∀ k, n ∈ members a k → k ∈ keys) :
    Adjacency.removeFrom (a.erase n) keys n = Adjacency.without a [n] := by
  refine ((h.erase n).removeFrom keys n).ext (h.without [n]) fun k => ?_
  rw [(h.erase n).members_removeFrom, members_without, members_erase]
  simp only [List.mem_singleton, @eq_comm _ k n]
  by_cases hn : n = k
  · simp only [hn, ↓reduceIte, List.filter_nil, ite_self]
  · simp only [hn, ↓reduceIte]
    split
    · rfl
    · case isFalse hk =>
      refine (List.filter_eq_self.2 fun x hx => decide_eq_true ?_).symm
      rintro rfl
      exact hk (hkeys k hx)

def Mentions (a : Adjacency) (n : Name) : Prop := n ∈ a ∨ ∃ k, n ∈ members a k

theorem not_mentions_without {gone : List Name} (hn : n ∈ gone) : ¬(a.without gone).Mentions n := by
  rintro (h | ⟨k, h⟩)
  · rw [Std.ExtTreeMap.mem_iff_isSome_getElem?, getElem?_without, if_pos (.inl hn)] at h
    cases h
  · exact (mem_without.1 h).2.2 hn

theorem Proper.without_eq_self {gone : List Name} (h : Proper a)
    (hk : ∀ k ∈ gone, ¬a.Mentions k) : a.without gone = a := by
  refine (h.without gone).ext h fun n => ?_
  rw [members_without]
  split
  · case isTrue hn =>
    rw [members, Std.ExtTreeMap.getElem?_eq_none (mt .inl (hk n hn)), Option.getD_none]
  · refine List.filter_eq_self.2 fun k hmem => decide_eq_true fun hg => hk k hg (.inr ⟨n, hmem⟩)

end Adjacency

namespace Edges

open Adjacency

/-- Every dependency is known from both its ends, and what an owner contains it depends on. -/
structure Mirrored (e : Edges) : Prop where
  ends : ∀ {x y}, y ∈ e.dependentsOf x ↔ x ∈ e.dependenciesOf y
  owned : ∀ {x y}, y ∈ e.containedIn x → x ∈ e.dependentsOf y
  contained : Proper e.contained
  dependents : Proper e.dependents
  dependencies : Proper e.dependencies

/-- Deletes names from all sets and the sets kept under them. -/
def without (e : Edges) (gone : List Name) : Edges where
  contained := e.contained.without gone
  dependents := e.dependents.without gone
  dependencies := e.dependencies.without gone

variable {e e₀ : Edges} {n k x y : Name}

theorem members_empty : members ∅ n = [] := by
  rw [members, NameMap.getElem?_empty, Option.getD_none]

theorem mirrored_empty : ({} : Edges).Mirrored where
  ends := by simp only [dependentsOf, dependenciesOf, members_empty, List.not_mem_nil, implies_true]
  owned h := by
    rw [containedIn, members_empty] at h
    cases h
  contained := proper_empty
  dependents := proper_empty
  dependencies := proper_empty

theorem mem_dependentsOf_depend {d : Name} :
    y ∈ (e.depend n d).dependentsOf x ↔ y ∈ e.dependentsOf x ∨ x = n ∧ y = d := by
  rw [depend]
  split
  · case isTrue hd =>
    refine ⟨.inl, fun h => h.elim id ?_⟩
    rintro ⟨rfl, rfl⟩
    exact hd
  · exact mem_add

theorem Mirrored.depend (h : e.Mirrored) (n d : Name) : (e.depend n d).Mirrored := by
  rw [Edges.depend]
  split
  · exact h
  · refine ⟨fun {x y} => ?_, fun hy => mem_add.2 (.inl (h.owned hy)), h.contained,
      h.dependents.add n d, h.dependencies.add d n⟩
    exact mem_add.trans ((or_congr h.ends and_comm).trans mem_add.symm)

theorem Mirrored.contain (h : e.Mirrored) {owner part : Name}
    (hp : owner ∈ e.dependentsOf part) :
    ({ e with contained := add e.contained owner part } : Edges).Mirrored where
  ends := h.ends
  owned hy := by
    obtain hy | ⟨rfl, rfl⟩ := mem_add.1 hy
    · exact h.owned hy
    · exact hp
  contained := h.contained.add owner part
  dependents := h.dependents
  dependencies := h.dependencies

theorem depend_contain (owner part d : Name) :
    ({ e with contained := add e.contained owner part } : Edges).depend n d =
      { e.depend n d with contained := add (e.depend n d).contained owner part } := by
  by_cases hd : d ∈ e.dependentsOf n
  · rw [show e.depend n d = e from if_pos hd]
    exact if_pos hd
  · rw [show e.depend n d = _ from if_neg hd]
    exact if_neg hd

/-- It is for the owner that a name is recorded as contained, so the name has to be in the form in
which dependencies are recorded. -/
theorem Mirrored.addContainment (h : e.Mirrored) {links : Links} (owner : Name) {part : Name}
    (hp : links.canonical part = part) : (e.addContainment links owner part).Mirrored := by
  rw [Edges.addContainment]
  split
  · exact h
  · rw [addDependency, hp, depend_contain]
    exact (h.depend part owner).contain (mem_dependentsOf_depend.2 (.inr ⟨rfl, rfl⟩))

section Without

variable {gone : List Name}

def Mentions (e : Edges) (n : Name) : Prop :=
  e.contained.Mentions n ∨ e.dependents.Mentions n ∨ e.dependencies.Mentions n

theorem not_mentions_without (hn : n ∈ gone) : ¬(e.without gone).Mentions n := by
  rintro (h | h | h) <;> exact Adjacency.not_mentions_without hn h

theorem Mirrored.without_eq_self (h : e.Mirrored) (hk : ∀ k ∈ gone, ¬e.Mentions k) :
    e.without gone = e := by
  have hcontained := h.contained.without_eq_self fun k hg => mt .inl (hk k hg)
  have hdependents := h.dependents.without_eq_self fun k hg => mt (.inr ∘ .inl) (hk k hg)
  have hdependencies := h.dependencies.without_eq_self fun k hg => mt (.inr ∘ .inr) (hk k hg)
  rw [Edges.without, hcontained, hdependents, hdependencies]

theorem Mirrored.without (h : e.Mirrored) (gone : List Name) : (e.without gone).Mirrored where
  ends := by
    intro x y
    refine mem_without.trans (Iff.trans ?_ mem_without.symm)
    exact and_congr h.ends and_comm
  owned hy := by
    obtain ⟨hy, hgone⟩ := mem_without.1 hy
    exact mem_without.2 ⟨h.owned hy, hgone.symm⟩
  contained := h.contained.without gone
  dependents := h.dependents.without gone
  dependencies := h.dependencies.without gone

theorem Mirrored.forget_eq_without (h : e.Mirrored) (n : Name) : e.forget n = e.without [n] := by
  have hcontained := h.contained.removeFrom_erase (n := n) fun _ hn => h.owned hn
  have hdependents := h.dependents.removeFrom_erase (n := n) fun _ hn => h.ends.1 hn
  have hdependencies := h.dependencies.removeFrom_erase (n := n) fun _ hn => h.ends.2 hn
  rw [forget, Edges.without]
  exact congr (congr (congrArg Edges.mk hcontained) hdependents) hdependencies

end Without

/-- What is left of the edges `e₀` while a teardown takes them away: it has taken the dependents of
the names in `entered` and what those in `opened` contain, and has forgotten those in `gone`. -/
structure Torn (e₀ : Edges) (entered opened gone : List Name) (e : Edges) : Prop where
  dependentsOf : ∀ k, e.dependentsOf k =
    if k ∈ entered then [] else (e₀.dependentsOf k).filter (· ∉ gone)
  dependenciesOf : ∀ k, e.dependenciesOf k = if k ∈ gone then [] else e₀.dependenciesOf k
  containedIn : ∀ k, e.containedIn k = if k ∈ opened then [] else e₀.containedIn k
  contained : Proper e.contained
  dependents : Proper e.dependents
  dependencies : Proper e.dependencies

section Torn

variable {entered opened gone : List Name}

theorem Mirrored.torn (h : e.Mirrored) : Torn e [] [] [] e where
  dependentsOf k := by simp only [List.not_mem_nil, ↓reduceIte, not_false_eq_true, decide_true,
    List.filter_true]
  dependenciesOf k := by simp only [List.not_mem_nil, ↓reduceIte]
  containedIn k := by simp only [List.not_mem_nil, ↓reduceIte]
  contained := h.contained
  dependents := h.dependents
  dependencies := h.dependencies

theorem ite_mem_cons {α : Type} (x y : α) :
    (if n = k then x else if k ∈ entered then x else y) = if k ∈ n :: entered then x else y := by
  by_cases hn : n = k
  · simp only [hn, ↓reduceIte, List.mem_cons_self]
  · simp only [hn, Ne.symm hn, ↓reduceIte, List.mem_cons, false_or]

theorem Torn.takeDependents (h : Torn e₀ entered opened gone e) (n : Name) :
    Torn e₀ (n :: entered) opened gone (e.takeDependents n) where
  dependentsOf k := by rw [dependentsOf_takeDependents, h.dependentsOf, ite_mem_cons]
  dependenciesOf := h.dependenciesOf
  containedIn := h.containedIn
  contained := h.contained
  dependents := h.dependents.erase n
  dependencies := h.dependencies

theorem Torn.takeContained (h : Torn e₀ entered opened gone e) (n : Name) :
    Torn e₀ entered (n :: opened) gone (e.takeContained n) where
  dependentsOf := h.dependentsOf
  dependenciesOf := h.dependenciesOf
  containedIn k := by rw [containedIn_takeContained, h.containedIn, ite_mem_cons]
  contained := h.contained.erase n
  dependents := h.dependents
  dependencies := h.dependencies

theorem Torn.dependents_forget (h : Torn e₀ entered opened gone e) (h₀ : e₀.Mirrored) (n : Name) :
    (e.forget n).dependents = e.dependents.without [n] := by
  refine h.dependents.removeFrom_erase fun k hk => ?_
  change n ∈ e.dependentsOf k at hk
  rw [h.dependentsOf] at hk
  split at hk
  · cases hk
  · obtain ⟨hmem, hg⟩ := List.mem_filter.1 hk
    rw [h.dependenciesOf, if_neg (of_decide_eq_true hg)]
    exact h₀.ends.1 hmem

theorem Torn.dependentsOf_forget (h : Torn e₀ entered opened gone e) (h₀ : e₀.Mirrored)
    (hk : k ∉ entered) (hn : n ∈ entered) :
    (e.forget n).dependentsOf k = (e₀.dependentsOf k).filter (· ∉ n :: gone) := by
  have hkn : k ∉ [n] := fun hkn => hk (List.mem_singleton.1 hkn ▸ hn)
  have hold : members e.dependents k = (e₀.dependentsOf k).filter (· ∉ gone) :=
    (h.dependentsOf k).trans (if_neg hk)
  rw [Edges.dependentsOf, h.dependents_forget h₀, members_without, if_neg hkn, hold]
  simp only [List.mem_singleton]
  exact filter_not_mem_cons _ gone n

theorem forget_of_taken (h : e.dependentsOf n = []) :
    e.forget n =
      { contained := e.contained.erase n
        dependents := removeFrom (e.dependents.erase n) (e.dependenciesOf n) n
        dependencies := e.dependencies.erase n } := by
  rw [Edges.forget, h]
  rfl

theorem Torn.forget (h : Torn e₀ entered opened gone e) (h₀ : e₀.Mirrored) (hn : n ∈ entered) :
    Torn e₀ entered (n :: opened) (n :: gone) (e.forget n) := by
  have hforget := forget_of_taken ((h.dependentsOf n).trans (if_pos hn))
  refine ⟨fun k => ?_, fun k => ?_, fun k => ?_, ?_, (h.dependents.erase n).removeFrom _ n, ?_⟩
  · split
    · case isTrue hk =>
      have hsub := e.dependentsOf_forget_sublist n k
      rw [h.dependentsOf, if_pos hk] at hsub
      exact List.sublist_nil.1 hsub
    · case isFalse hk => exact h.dependentsOf_forget h₀ hk hn
  · rw [← ite_mem_cons, ← h.dependenciesOf, hforget]
    exact members_erase e.dependencies n k
  · rw [← ite_mem_cons, ← h.containedIn, hforget]
    exact members_erase e.contained n k
  · rw [hforget]
    exact h.contained.erase n
  · rw [hforget]
    exact h.dependencies.erase n

theorem Torn.eq_without (h : Torn e₀ entered opened gone e) (h₀ : e₀.Mirrored)
    (hopened : ∀ k, k ∈ opened ↔ k ∈ entered) (hgone : ∀ k, k ∈ gone ↔ k ∈ entered)
    (hclosed : ∀ k ∈ entered, e₀.dependentsOf k ⊆ entered) : e = e₀.without entered := by
  have hkeep {k : Name} (hk : k ∉ entered) {set : List Name}
      (hset : ∀ y ∈ set, k ∈ e₀.dependentsOf y) : set = set.filter (· ∉ entered) := by
    refine (List.filter_eq_self.2 fun y hy => ?_).symm
    rw [decide_eq_true_eq]
    exact fun hy' => hk (hclosed y hy' (hset y hy))
  have hcontained : e.contained = e₀.contained.without entered := by
    refine h.contained.ext (h₀.contained.without entered) fun k => ?_
    rw [members_without]
    refine (h.containedIn k).trans ?_
    simp only [hopened]
    split
    · rfl
    · case isFalse hk => exact hkeep hk fun y hy => h₀.owned hy
  have hdependents : e.dependents = e₀.dependents.without entered := by
    refine h.dependents.ext (h₀.dependents.without entered) fun k => ?_
    rw [members_without]
    refine (h.dependentsOf k).trans ?_
    simp only [hgone]
    rfl
  have hdependencies : e.dependencies = e₀.dependencies.without entered := by
    refine h.dependencies.ext (h₀.dependencies.without entered) fun k => ?_
    rw [members_without]
    refine (h.dependenciesOf k).trans ?_
    simp only [hgone]
    split
    · rfl
    · case isFalse hk => exact hkeep hk fun y hy => h₀.ends.2 hy
  obtain ⟨contained, dependents, dependencies⟩ := e
  rw [without, ← hcontained, ← hdependents, ← hdependencies]

end Torn

end Edges

end ObjectRegistry
