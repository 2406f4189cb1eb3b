import Mathlib.Logic.Function.Iterate
import ObjectRegistry.Proofs.Chains

namespace ObjectRegistry.Links

open Relation

variable {l : Links} {aka n m : Name} {links : List (Name × Name)} {pending seen : List Name}

def unmet (links : List (Name × Name)) (seen : List Name) (n : Name) : List Name :=
  (sources links n).filter (· ∉ seen)

theorem mem_unmet : aka ∈ unmet links seen n ↔ (aka, n) ∈ links ∧ aka ∉ seen := by
  rw [unmet, List.mem_filter, mem_sources_iff, decide_eq_true_eq]

theorem nodup_unmet (h : (links.map (·.1)).Nodup) : (unmet links seen n).Nodup := by
  rw [unmet, sources_eq_map]
  exact (h.sublist (List.filter_sublist.map _)).filter _

/-- How many looks a walk back may still take: one for each name it knows of, and one for each alias
it has not met. -/
def looksLeft (links : List (Name × Name)) (pending seen : List Name) : Nat :=
  links.countP (·.1 ∉ seen) + pending.length

theorem looksLeft_look (links : List (Name × Name)) (seen rest : List Name) (n : Name) :
    looksLeft links ((unmet links seen n).reverse ++ rest) (seen ++ unmet links seen n) <
      looksLeft links (n :: rest) seen := by
  have hsplit := List.countP_eq_countP_filter_add links (·.1 ∉ seen) (·.2 = n)
  have hmet : (unmet links seen n).length = (links.filter (·.2 = n)).countP (·.1 ∉ seen) := by
    rw [unmet, sources_eq_map, ← List.countP_eq_length_filter, List.countP_map]
    rfl
  -- What is unmet after the look was so before it, and does not point to `n`.
  have hleft : links.countP (·.1 ∉ seen ++ unmet links seen n) ≤
      (links.filter fun link => !decide (link.2 = n)).countP (·.1 ∉ seen) := by
    rw [List.countP_filter]
    refine List.countP_mono_left fun link hl hu => ?_
    simp only [decide_eq_true_eq, List.mem_append, mem_unmet, not_or, not_and, not_not] at hu
    simp only [hu.1, not_false_eq_true, decide_true, Bool.true_and, Bool.not_eq_eq_eq_not,
      Bool.not_true, decide_eq_false_iff_not]
    rintro rfl
    exact hu.1 (hu.2 hl)
  simp only [looksLeft, List.length_append, List.length_reverse, List.length_cons]
  omega

/-- The aliases that a walk back meets, in the order in which it meets them. The names of
`pending` are still to be looked at, the first one next. -/
def walkBack (links : List (Name × Name)) (pending seen : List Name) : List Name :=
  match pending with
  | [] => seen
  | n :: rest =>
    walkBack links ((unmet links seen n).reverse ++ rest) (seen ++ unmet links seen n)
termination_by looksLeft links pending seen
decreasing_by exact looksLeft_look links seen rest n

/-- Whether `aka` points to a name that the walk looks at. The walk goes no further then. -/
def meets (links : List (Name × Name)) (aka : Name) (pending seen : List Name) : Bool :=
  match pending with
  | [] => false
  | n :: rest =>
    aka ∈ sources links n ||
      meets links aka ((unmet links seen n).reverse ++ rest) (seen ++ unmet links seen n)
termination_by looksLeft links pending seen
decreasing_by exact looksLeft_look links seen rest n

def look (links : List (Name × Name)) : List Name × List Name → List Name × List Name
  | ([], seen) => ([], seen)
  | (n :: rest, seen) => ((unmet links seen n).reverse ++ rest, seen ++ unmet links seen n)

theorem iterate_look {k : Nat} (hk : looksLeft links pending seen ≤ k) :
    (look links)^[k] (pending, seen) = ([], walkBack links pending seen) := by
  induction k generalizing pending seen with
  | zero =>
    have hnil : pending = [] := List.eq_nil_of_length_eq_zero (by rw [looksLeft] at hk; omega)
    rw [hnil, walkBack, Function.iterate_zero_apply]
  | succ k ih =>
    rw [Function.iterate_succ_apply]
    cases pending with
    | nil => rw [walkBack, look, Function.iterate_fixed rfl]
    | cons n rest =>
      have hlt := looksLeft_look links seen rest n
      rw [look, walkBack, ih (by omega)]

/-- How far a walk back from `n` has come. -/
structure Backing (l : Links) (n : Name) (pending seen : List Name) : Prop where
  nodup : seen.Nodup
  pending_reaches : ∀ m ∈ pending, ReflTransGen l.Points m n
  seen_reaches : ∀ a ∈ seen, TransGen l.Points a n
  covers : ∀ m, m = n ∨ m ∈ seen → m ∈ pending ∨ ∀ a, l.Points a m → a ∈ seen

namespace Backing

theorem start (l : Links) (n : Name) : Backing l n [n] [] where
  nodup := List.nodup_nil
  pending_reaches m hm := by rw [List.mem_singleton.1 hm]
  seen_reaches a ha := absurd ha List.not_mem_nil
  covers m hm := .inl (List.mem_singleton.2 (hm.resolve_right List.not_mem_nil))

theorem look {rest : List Name} (hp : links.Perm l.target.toList)
    (h : Backing l n (m :: rest) seen) :
    Backing l n ((unmet links seen m).reverse ++ rest) (seen ++ unmet links seen m) := by
  have hmem (a : Name) : a ∈ unmet links seen m ↔ l.Points a m ∧ a ∉ seen := by
    rw [mem_unmet, mem_iff_of_perm hp]
  have hm := h.pending_reaches m List.mem_cons_self
  constructor
  case nodup =>
    refine List.nodup_append.2 ⟨h.nodup, nodup_unmet (nodup_of_perm hp), ?_⟩
    rintro a ha b hb rfl
    exact ((hmem a).1 hb).2 ha
  case pending_reaches =>
    intro k hk
    obtain hk | hk := List.mem_append.1 hk
    · exact .head ((hmem k).1 (List.mem_reverse.1 hk)).1 hm
    · exact h.pending_reaches k (List.mem_cons_of_mem _ hk)
  case seen_reaches =>
    intro a ha
    obtain ha | ha := List.mem_append.1 ha
    · exact h.seen_reaches a ha
    · exact .head' ((hmem a).1 ha).1 hm
  case covers =>
    intro k hk
    by_cases hkm : k = m
    · refine .inr fun a ha => ?_
      subst hkm
      by_cases hs : a ∈ seen
      · exact List.mem_append_left _ hs
      · exact List.mem_append_right _ ((hmem a).2 ⟨ha, hs⟩)
    · obtain hk | hk := or_assoc.2 (hk.imp_right List.mem_append.1)
      · obtain hp | hall := h.covers k hk
        · exact .inl (List.mem_append_right _ ((List.mem_cons.1 hp).resolve_left hkm))
        · exact .inr fun a ha => List.mem_append_left _ (hall a ha)
      · exact .inl (List.mem_append_left _ (List.mem_reverse.2 hk))

theorem mem_iff_of_nil (h : Backing l n [] seen) : aka ∈ seen ↔ TransGen l.Points aka n := by
  refine ⟨h.seen_reaches aka, fun hpath => ?_⟩
  have hall : ∀ m, m = n ∨ m ∈ seen → ∀ a, l.Points a m → a ∈ seen := fun m hm =>
    (h.covers m hm).resolve_left List.not_mem_nil
  induction hpath using TransGen.head_induction_on with
  | single ha => exact hall n (.inl rfl) _ ha
  | head ha _ ih => exact hall _ (.inr ih) _ ha

theorem walkBack (hp : links.Perm l.target.toList) (h : Backing l n pending seen) :
    (Links.walkBack links pending seen).Nodup ∧
      ∀ aka, aka ∈ Links.walkBack links pending seen ↔ TransGen l.Points aka n := by
  induction pending, seen using Links.walkBack.induct links with
  | case1 seen =>
    rw [Links.walkBack]
    exact ⟨h.nodup, fun aka => h.mem_iff_of_nil⟩
  | case2 seen m rest ih =>
    rw [Links.walkBack]
    exact ih (h.look hp)

theorem meets (hp : links.Perm l.target.toList) (h : Backing l n pending seen)
    (hn : aka ∉ seen) : Links.meets links aka pending seen = true ↔ TransGen l.Points aka n := by
  induction pending, seen using Links.meets.induct links with
  | case1 seen =>
    rw [Links.meets, ← h.mem_iff_of_nil]
    exact iff_of_false Bool.false_ne_true hn
  | case2 seen m rest ih =>
    rw [Links.meets, Bool.or_eq_true, decide_eq_true_eq]
    by_cases ha : aka ∈ sources links m
    · have hpoints : l.Points aka m := (mem_iff_of_perm hp).1 (mem_sources_iff.1 ha)
      exact iff_of_true (.inl ha) (.head' hpoints (h.pending_reaches m List.mem_cons_self))
    · rw [or_iff_right ha]
      refine ih (h.look hp) fun hs => ?_
      obtain hs | hs := List.mem_append.1 hs
      · exact hn hs
      · exact ha (List.mem_filter.1 hs).1

end Backing

theorem mem_aliasesOf : aka ∈ l.aliasesOf n ↔ TransGen l.Points aka n := by
  rw [aliasesOf, List.mem_filter, decide_eq_true_eq, mem_leadingTo]
  refine and_iff_right_of_imp fun h => ?_
  obtain ⟨m, hm, -⟩ := TransGen.head'_iff.1 h
  exact mem_keys_of_points hm

theorem nodup_aliasesOf (l : Links) (n : Name) : (l.aliasesOf n).Nodup :=
  Std.ExtTreeMap.nodup_keys.filter _

/-- On all links, circular or not, and in whatever order it takes them, a walk back is over after
one look at its name and one at each alias, and answers either query. The list has just the aliases
from which one or more links lead to the name, each of them once, and these are the ones it is found
to have. On links in no circle they stand for what the name stands for and differ from it, and if
the name is no alias itself then no other names stand for it. -/
theorem alias_queries_agree (l : Links) :
    (∀ links : List (Name × Name), links.Perm l.target.toList → ∀ n,
      (look links)^[l.target.size + 1] ([n], []) = ([], walkBack links [n] []) ∧
        (walkBack links [n] []).Perm (l.aliasesOf n) ∧
        ∀ aka, meets links aka [n] [] = l.hasAlias n aka) ∧
      (∀ n, (l.aliasesOf n).Nodup ∧ ∀ aka,
        (aka ∈ l.aliasesOf n ↔ TransGen l.Points aka n) ∧
          (l.hasAlias n aka = true ↔ TransGen l.Points aka n)) ∧
      (l.Acyclic →
        (∀ n, ∀ aka ∈ l.aliasesOf n, aka ≠ n ∧ l.canonical aka = l.canonical n) ∧
          ∀ n, l.isAlias n = false → ∀ aka,
            aka ∈ l.aliasesOf n ↔ aka ≠ n ∧ l.canonical aka = n) := by
  refine ⟨fun links hp n => ⟨?_, ?_, fun aka => ?_⟩,
    fun n => ⟨nodup_aliasesOf l n, fun aka => ?_⟩,
    fun h => ⟨fun n aka ha => ?_, fun n hn aka => ?_⟩⟩
  · refine iterate_look (Nat.add_le_add_right (List.countP_le_length.trans_eq ?_) 1)
    rw [hp.length_eq, Std.ExtTreeMap.length_toList]
  · obtain ⟨hnodup, hmem⟩ := (Backing.start l n).walkBack hp
    refine (List.perm_ext_iff_of_nodup hnodup (nodup_aliasesOf l n)).2 fun aka => ?_
    rw [hmem, mem_aliasesOf]
  · rw [Bool.eq_iff_iff, hasAlias_iff]
    exact (Backing.start l n).meets hp List.not_mem_nil
  · exact ⟨mem_aliasesOf, hasAlias_iff⟩
  · have hpath := mem_aliasesOf.1 ha
    refine ⟨?_, h.canonical_eq_of_reaches hpath.to_reflTransGen⟩
    rintro rfl
    exact h aka hpath
  · have hend : l.target[n]? = none := isAlias_eq_false_iff.1 hn
    rw [mem_aliasesOf, h.canonical_eq_iff, and_iff_left hend]
    constructor
    · intro hpath
      refine ⟨?_, hpath.to_reflTransGen⟩
      rintro rfl
      exact h aka hpath
    · rintro ⟨hne, hpath⟩
      exact (reflTransGen_iff_eq_or_transGen.1 hpath).resolve_left (Ne.symm hne)

def ringed : Links := ((({} : Links).insert "b" "a").insert "a" "b").insert "a" "c"

theorem alias_queries_agree_ringed :
    (look [("c", "a"), ("b", "a"), ("a", "b")])^[4] (["a"], []) =
        ([], walkBack [("c", "a"), ("b", "a"), ("a", "b")] ["a"] []) ∧
      (walkBack [("c", "a"), ("b", "a"), ("a", "b")] ["a"] []).Perm (ringed.aliasesOf "a") ∧
      meets [("c", "a"), ("b", "a"), ("a", "b")] "a" ["a"] [] = ringed.hasAlias "a" "a" ∧
      ringed.aliasesOf "a" = ["a", "b", "c"] ∧
      threefold.Acyclic ∧ "c" ∈ threefold.aliasesOf "b" ∧
      threefold.canonical "c" = threefold.canonical "b" := by
  have hperm : [("c", "a"), ("b", "a"), ("a", "b")].Perm ringed.target.toList := by decide
  obtain ⟨hwalk, -, -⟩ := alias_queries_agree ringed
  obtain ⟨-, -, hacyclic⟩ := alias_queries_agree threefold
  obtain ⟨hends, hlisted, hfound⟩ := hwalk _ hperm "a"
  have hmem : "c" ∈ threefold.aliasesOf "b" := by decide
  exact ⟨hends, hlisted, hfound "a", by decide, threefold_acyclic, hmem,
    ((hacyclic threefold_acyclic).1 "b" "c" hmem).2⟩

end ObjectRegistry.Links
