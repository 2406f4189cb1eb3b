import ObjectRegistry.Proofs.RenamedLinks

namespace ObjectRegistry.Links

open Relation

variable {f : Name → Option Name} {l l' : Links} {a b m n x y : Name} {fault : Fault}
  {order : List (Name × Name)}

def Uses (l : Links) (n : Name) : Prop := ∃ m, l.Points n m ∨ l.Points m n

/-- No two names in use become one, and one that becomes another becomes one that is not in use. -/
structure Freshens (f : Name → Option Name) (l : Links) : Prop where
  injective : ∀ m n x, l.Uses m → l.Uses n → f m = some x → f n = some x → m = n
  fresh : ∀ n x, l.Uses n → f n = some x → x = n ∨ ¬l.Uses x

/-- The name `x` is what `n` is called, before or after it is renamed. -/
def Denotes (f : Name → Option Name) (x n : Name) : Prop := x = n ∨ f n = some x

def Mixes (f : Name → Option Name) (l l' : Links) : Prop :=
  ∀ x y, l'.Points x y → l.Points x y ∨ ∃ a b, l.Points a b ∧ f a = some x ∧ f b = some y

theorem uses_of_alias (h : l.Points a b) : l.Uses a := ⟨b, .inl h⟩

theorem uses_of_target (h : l.Points a b) : l.Uses b := ⟨a, .inr h⟩

theorem uses_of_reaches (hm : l.Uses m) (h : ReflTransGen l.Points m n) : l.Uses n := by
  obtain rfl | ⟨k, -, hk⟩ := ReflTransGen.cases_tail h
  · exact hm
  · exact uses_of_target hk

theorem mixes_of_settles {before rest : List (Name × Name)} (ho : order.Perm l.target.toList)
    (he : order = before ++ rest) (hr : renameAll f before l = (none, l')) : Mixes f l l' := by
  intro x y hxy
  obtain hrest | hs := (points_of_snapshot ho he hr (x, y)).1 hxy
  · exact .inl ((mem_iff_of_perm ho).1 (he ▸ List.mem_append_right _ hrest))
  · obtain ⟨link, hl, ha, hb, -⟩ := hs.becomes
    exact .inr ⟨link.1, link.2, (mem_iff_of_perm ho).1 (he ▸ List.mem_append_left _ hl), ha, hb⟩

theorem Mixes.denotes (h : Mixes f l l') (hxy : l'.Points x y) :
    ∃ a b, l.Points a b ∧ Denotes f x a ∧ Denotes f y b := by
  obtain hl | ⟨a, b, hab, ha, hb⟩ := h x y hxy
  · exact ⟨x, y, hl, .inl rfl, .inl rfl⟩
  · exact ⟨a, b, hab, .inr ha, .inr hb⟩

namespace Freshens

variable (hf : Freshens f l)
include hf

theorem eq_of_uses (hm : l.Uses m) (hn : l.Uses n) (h : f m = some n) : m = n :=
  ((hf.fresh m n hm h).resolve_right (not_not.2 hn)).symm

theorem denotes_unique (hm : l.Uses m) (hn : l.Uses n) (hxm : Denotes f x m)
    (hxn : Denotes f x n) : m = n := by
  obtain rfl | hxm := hxm
  · obtain rfl | hxn := hxn
    · rfl
    · exact (hf.eq_of_uses hn hm hxn).symm
  · obtain rfl | hxn := hxn
    · exact hf.eq_of_uses hm hn hxm
    · exact hf.injective m n x hm hn hxm hxn

theorem path (hl : Mixes f l l') (h : TransGen l'.Points x y) :
    ∃ a b, TransGen l.Points a b ∧ l.Uses a ∧ l.Uses b ∧ Denotes f x a ∧ Denotes f y b := by
  induction h with
  | single hxy =>
    obtain ⟨a, b, hab, ha, hb⟩ := hl.denotes hxy
    exact ⟨a, b, .single hab, uses_of_alias hab, uses_of_target hab, ha, hb⟩
  | tail _ hyz ih =>
    obtain ⟨a, b, hab, hua, hub, ha, hb⟩ := ih
    obtain ⟨b', c, hbc, hb', hc⟩ := hl.denotes hyz
    obtain rfl := hf.denotes_unique hub (uses_of_alias hbc) hb hb'
    exact ⟨a, c, hab.tail hbc, hua, uses_of_target hbc, ha, hc⟩

theorem acyclic (h : l.Acyclic) (hl : Mixes f l l') : l'.Acyclic := by
  intro x hx
  obtain ⟨a, b, hab, hua, hub, ha, hb⟩ := hf.path hl hx
  obtain rfl := hf.denotes_unique hua hub ha hb
  exact h a hab

theorem not_refused (h : l.Acyclic) (hl : Mixes f l l') (hab : l.Points a b) :
    ¬Renames f a b l' (.error fault) := by
  have hua : l.Uses a := uses_of_alias hab
  have hub : l.Uses b := uses_of_target hab
  intro hren
  cases hren with
  | taken ha hn hs hm hp he =>
    obtain hold | ⟨a', b', hab', ha', hb'⟩ := hl _ _ hp
    · exact hm (hf.eq_of_uses hua (uses_of_alias hold) ha).symm
    · obtain rfl := hf.injective a' a _ (uses_of_alias hab') hua ha' ha
      obtain rfl := points_rightUnique hab' hab
      exact he (Option.some.inj (hb'.symm.trans hn))
  | circular ha hn hs hm hfree hc =>
    obtain heq | hc := reflTransGen_iff_eq_or_transGen.1 hc
    · exact hs heq.symm
    · -- A way from the new name of the target to that of the alias was a way before.
      obtain ⟨b', a', hpath, hub', hua', hb', ha'⟩ := hf.path hl hc
      obtain rfl := hf.denotes_unique hub' hub hb' (.inr hn)
      obtain rfl := hf.denotes_unique hua' hua ha' (.inr ha)
      exact h a' (.head hab hpath)

theorem becomes_self (ho : order.Perm l.target.toList) :
    ∀ link ∈ order, ∀ new ∈ order, Becomes f link new → Becomes f new new := by
  intro link hl new hn hb
  have hlink := (mem_iff_of_perm ho).1 hl
  have hnew := (mem_iff_of_perm ho).1 hn
  have h1 := hf.eq_of_uses (uses_of_alias hlink) (uses_of_alias hnew) hb.1
  have h2 := hf.eq_of_uses (uses_of_target hlink) (uses_of_target hnew) hb.2.1
  rwa [Prod.ext h1 h2] at hb

theorem renameAll_ok (h : l.Acyclic) (ho : order.Perm l.target.toList) :
    (renameAll f order l).1 = none := by
  cases hr : renameAll f order l with
  | mk outcome l' =>
    cases outcome with
    | none => rfl
    | some fault =>
      obtain ⟨before, link, rest, he, hbefore, hlink⟩ := renameAll_error hr
      have hpoints : l.Points link.1 link.2 :=
        (mem_iff_of_perm ho).1 (he ▸ List.mem_append_right _ List.mem_cons_self)
      have hren := renames f link.1 link.2 l'
      rw [hlink] at hren
      exact absurd hren (hf.not_refused h (mixes_of_settles ho he hbefore) hpoints)

theorem points_iff (h : l.Acyclic) (ho : order.Perm l.target.toList) :
    (renameAll f order l).2.Points x y ↔ ∃ a b, l.Points a b ∧ f a = some x ∧ f b = some y := by
  have hok := hf.renameAll_ok h ho
  rw [points_of_ok ho hok (x, y),
    settles_iff_of_self ((nodup_of_perm ho).of_map _) (hf.becomes_self ho)]
  constructor
  · rintro ⟨link, hl, ha, hb, -⟩
    exact ⟨link.1, link.2, (mem_iff_of_perm ho).1 hl, ha, hb⟩
  · rintro ⟨a, b, hab, ha, hb⟩
    refine ⟨(a, b), (mem_iff_of_perm ho).2 hab, ha, hb, ?_⟩
    intro hxy
    obtain rfl : x = y := hxy
    obtain rfl := hf.injective a b _ (uses_of_alias hab) (uses_of_target hab) ha hb
    exact h a (.single hab)

theorem mixes (h : l.Acyclic) (ho : order.Perm l.target.toList) :
    Mixes f l (renameAll f order l).2 := fun _ _ hxy => .inr ((hf.points_iff h ho).1 hxy)

theorem reaches (h : l.Acyclic) (ho : order.Perm l.target.toList)
    (hall : ∀ n, l.Uses n → f n ≠ none) (hm : f m = some x) (hmn : ReflTransGen l.Points m n) :
    ∃ y, f n = some y ∧ ReflTransGen (renameAll f order l).2.Points x y := by
  induction hmn with
  | refl => exact ⟨x, hm, .refl⟩
  | tail _ hbc ih =>
    obtain ⟨y, hy, hpath⟩ := ih
    obtain ⟨z, hz⟩ := Option.ne_none_iff_exists'.1 (hall _ (uses_of_target hbc))
    exact ⟨z, hz, hpath.tail ((hf.points_iff h ho).2 ⟨_, _, hbc, hy, hz⟩)⟩

theorem canonical_renamed (h : l.Acyclic) (ho : order.Perm l.target.toList)
    (hall : ∀ n, l.Uses n → f n ≠ none) (hn : l.Uses n) (hx : f n = some x) :
    f (l.canonical n) = some ((renameAll f order l).2.canonical x) := by
  have hreach := h.reaches_canonical n
  obtain ⟨y, hy, hpath⟩ := hf.reaches h ho hall hx hreach
  have hend : (renameAll f order l).2.target[y]? = none := by
    refine not_alias_iff.2 fun z hz => ?_
    obtain ⟨a, b, hab, ha, -⟩ := (hf.points_iff h ho).1 hz
    obtain rfl := hf.injective _ _ _ (uses_of_alias hab) (uses_of_reaches hn hreach) ha hy
    exact not_alias_iff.1 (h.not_alias_canonical n) b hab
  rw [hy, (hf.acyclic h (hf.mixes h ho)).canonical_eq_iff.2 ⟨hpath, hend⟩]

end Freshens

/-- Links in no circle whose names become names that are not in use are all renamed, in whatever
order. A link that loses an end is gone, and its alias with it. The others are just those that the
links become, in no circle, and if no name is lost then what a name stood for becomes what its new
name stands for. -/
theorem fresh_renaming_commutes (h : l.Acyclic) (hf : Freshens f l)
    (ho : order.Perm l.target.toList) :
    (renameAll f order l).1 = none ∧
      (∀ a b, l.Points a b → f a = none ∨ f b = none →
        (renameAll f order l).2.isAlias a = false) ∧
      (∀ x y, (renameAll f order l).2.Points x y ↔
        ∃ a b, l.Points a b ∧ f a = some x ∧ f b = some y) ∧
      (renameAll f order l).2.Acyclic ∧
      ((∀ n, l.Uses n → f n ≠ none) → ∀ n x, l.Uses n → f n = some x →
        f (l.canonical n) = some ((renameAll f order l).2.canonical x)) := by
  refine ⟨hf.renameAll_ok h ho, fun a b hab hlost => ?_, fun x y => hf.points_iff h ho,
    hf.acyclic h (hf.mixes h ho), fun hall n x => hf.canonical_renamed h ho hall⟩
  rw [isAlias_eq_false_iff, not_alias_iff]
  intro y hy
  obtain ⟨a', b', hab', ha', hb'⟩ := (hf.points_iff h ho).1 hy
  obtain rfl := hf.eq_of_uses (uses_of_alias hab') (uses_of_alias hab) ha'
  obtain rfl := points_rightUnique hab' hab
  simp only [ha', hb', reduceCtorEq, or_self] at hlost

def refreshing (n : Name) : Option Name :=
  if n = "a" then some "w" else if n = "c" then some "z" else some n

theorem threefold_uses (h : threefold.Uses n) : n ∈ ["a", "b", "c"] := by
  have hends : ∀ link ∈ threefold.target.toList,
      link.1 ∈ ["a", "b", "c"] ∧ link.2 ∈ ["a", "b", "c"] := by decide
  obtain ⟨m, hm | hm⟩ := h
  · exact (hends (n, m) ((mem_iff_of_perm (.refl _)).2 hm)).1
  · exact (hends (m, n) ((mem_iff_of_perm (.refl _)).2 hm)).2

theorem refreshing_freshens : Freshens refreshing threefold where
  injective m n x hm hn hmx hnx := by
    have hdiffer : ∀ m ∈ ["a", "b", "c"], ∀ n ∈ ["a", "b", "c"],
        refreshing m = refreshing n → m = n := by decide
    exact hdiffer m (threefold_uses hm) n (threefold_uses hn) (hmx.trans hnx.symm)
  fresh n x hn hx := by
    have hnew : ∀ n ∈ ["a", "b", "c"],
        refreshing n = some n ∨ ∃ x ∈ ["w", "z"], refreshing n = some x := by decide
    have hunused : ∀ x ∈ ["w", "z"], x ∉ ["a", "b", "c"] := by decide
    obtain hsame | ⟨y, hy, hny⟩ := hnew n (threefold_uses hn)
    · exact .inl (Option.some.inj (hx.symm.trans hsame))
    · obtain rfl := Option.some.inj (hx.symm.trans hny)
      exact .inr fun hu => hunused x hy (threefold_uses hu)

theorem fresh_renaming_commutes_threefold :
    threefold.Acyclic ∧ Freshens refreshing threefold ∧
      [("c", "b"), ("b", "a")].Perm threefold.target.toList ∧
      (renameAll refreshing [("c", "b"), ("b", "a")] threefold).1 = none ∧
      refreshing (threefold.canonical "c") =
        some ((renameAll refreshing [("c", "b"), ("b", "a")] threefold).2.canonical "z") := by
  have hp : [("c", "b"), ("b", "a")].Perm threefold.target.toList := by decide
  have hall : ∀ n, threefold.Uses n → refreshing n ≠ none := by
    have hkept : ∀ n ∈ ["a", "b", "c"], refreshing n ≠ none := by decide
    exact fun n hn => hkept n (threefold_uses hn)
  have hc : threefold.Uses "c" := ⟨"b", .inl (by unfold Points; decide)⟩
  obtain ⟨hok, -, -, -, hcanonical⟩ :=
    fresh_renaming_commutes threefold_acyclic refreshing_freshens hp
  exact ⟨threefold_acyclic, refreshing_freshens, hp, hok, hcanonical hall "c" "z" hc (by decide)⟩

end ObjectRegistry.Links
