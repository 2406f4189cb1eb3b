import ObjectRegistry.Proofs.Chains

namespace ObjectRegistry.Links

open Relation

variable {f : Name → Option Name} {l l' : Links} {aka name : Name} {order : List (Name × Name)}

inductive Renames (f : Name → Option Name) (aka name : Name) (l : Links) :
    Except Fault Links → Prop where
  | lost (h : f aka = none ∨ f name = none) : Renames f aka name l (.ok (l.erase aka))
  | collapsed {new : Name} (ha : f aka = some new) (hn : f name = some new) :
    Renames f aka name l (.ok (l.erase aka))
  | kept (ha : f aka = some aka) (hn : f name = some name) (hs : name ≠ aka) :
    Renames f aka name l (.ok l)
  | retargeted {newName : Name} (ha : f aka = some aka) (hn : f name = some newName)
    (hs : newName ≠ aka) (hne : newName ≠ name) :
    Renames f aka name l (.ok (l.insert newName aka))
  | merged {newAlias newName : Name} (ha : f aka = some newAlias) (hn : f name = some newName)
    (hs : newName ≠ newAlias) (hm : newAlias ≠ aka) (hp : l.Points newAlias newName) :
    Renames f aka name l (.ok (l.erase aka))
  | taken {newAlias newName existing : Name} (ha : f aka = some newAlias)
    (hn : f name = some newName) (hs : newName ≠ newAlias) (hm : newAlias ≠ aka)
    (hp : l.Points newAlias existing) (he : existing ≠ newName) :
    Renames f aka name l (.error (.aliasTaken newAlias newName name))
  | circular {newAlias newName : Name} (ha : f aka = some newAlias) (hn : f name = some newName)
    (hs : newName ≠ newAlias) (hm : newAlias ≠ aka) (hfree : l.target[newAlias]? = none)
    (hc : ReflTransGen l.Points newName newAlias) :
    Renames f aka name l (.error (.circularAlias newAlias newName))
  | moved {newAlias newName : Name} (ha : f aka = some newAlias) (hn : f name = some newName)
    (hs : newName ≠ newAlias) (hm : newAlias ≠ aka) (hfree : l.target[newAlias]? = none)
    (hc : ¬ReflTransGen l.Points newName newAlias) :
    Renames f aka name l (.ok ((l.erase aka).insert newName newAlias))

theorem renames (f : Name → Option Name) (aka name : Name) (l : Links) :
    Renames f aka name l (renameLink f aka name l) := by
  rw [renameLink.eq_def]
  split
  · case h_1 newAlias newName ha hn =>
    split
    · case isTrue hs => exact .collapsed ha (hs ▸ hn)
    · case isFalse hs =>
      have hs : newName ≠ newAlias := Ne.symm hs
      split
      · case isTrue hm =>
        subst hm
        split
        · case isTrue he => exact .kept ha (he ▸ hn) (he ▸ hs)
        · case isFalse he => exact .retargeted ha hn hs he
      · case isFalse hm =>
        split
        · case h_1 existing hp =>
          split
          · case isTrue he => exact .merged ha hn hs hm (he ▸ hp)
          · case isFalse he => exact .taken ha hn hs hm hp he
        · case h_2 hfree =>
          split
          · case isTrue hc => exact .circular ha hn hs hm hfree ((hasAlias_of_ne hs).1 hc)
          · case isFalse hc => exact .moved ha hn hs hm hfree (mt (hasAlias_of_ne hs).2 hc)
  · case h_2 hlost =>
    refine .lost (Classical.byContradiction fun h => ?_)
    rw [not_or, ← ne_eq, ← ne_eq, Option.ne_none_iff_exists', Option.ne_none_iff_exists'] at h
    obtain ⟨⟨newAlias, ha⟩, newName, hn⟩ := h
    exact hlost newAlias newName ha hn

theorem reaches_of_erase {a b : Name} (h : ReflTransGen (l.erase aka).Points a b) :
    ReflTransGen l.Points a b :=
  ReflTransGen.mono (fun _ _ hab => (points_erase.1 hab).2) a b h

/-- The link from `aka` to `name` keeps its alias, and its target moves to a name that leads to
this alias. -/
def Bends (f : Name → Option Name) (aka name : Name) (l : Links) : Prop :=
  ∃ newName, f aka = some aka ∧ f name = some newName ∧ newName ≠ aka ∧ newName ≠ name ∧
    ReflTransGen l.Points newName aka

theorem Acyclic.renameLink_iff (h : l.Acyclic) (hr : renameLink f aka name l = .ok l') :
    l'.Acyclic ↔ ¬Bends f aka name l := by
  have hren := renames f aka name l
  rw [hr] at hren
  cases hren with
  | lost hl =>
    refine iff_of_true (h.erase aka) ?_
    rintro ⟨newName, ha, hn, -⟩
    rw [ha, hn] at hl
    cases hl <;> contradiction
  | @collapsed new ha hn =>
    refine iff_of_true (h.erase aka) ?_
    rintro ⟨newName, ha', hn', hs, -⟩
    rw [ha] at ha'
    rw [hn, ha'] at hn'
    exact hs (Option.some.inj hn').symm
  | kept ha hn hs =>
    refine iff_of_true h ?_
    rintro ⟨newName, -, hn', -, hne, -⟩
    rw [hn] at hn'
    exact hne (Option.some.inj hn').symm
  | @retargeted newName ha hn hs hne =>
    rw [h.insert_iff, not_iff_not]
    refine ⟨fun hp => ⟨newName, ha, hn, hs, hne, hp⟩, ?_⟩
    rintro ⟨new, -, hn', -, -, hp⟩
    rw [hn] at hn'
    rwa [Option.some.inj hn']
  | @merged newAlias newName ha hn hs hm hp =>
    refine iff_of_true (h.erase aka) ?_
    rintro ⟨-, ha', -⟩
    rw [ha] at ha'
    exact hm (Option.some.inj ha')
  | @moved newAlias newName ha hn hs hm hfree hc =>
    refine iff_of_true ((h.erase aka).insert_iff.2 fun hp => hc (reaches_of_erase hp)) ?_
    rintro ⟨-, ha', -⟩
    rw [ha] at ha'
    exact hm (Option.some.inj ha')

/-- One of the links of `order` bends when its turn comes. -/
inductive Closes (f : Name → Option Name) : List (Name × Name) → Links → Prop where
  | now {aka name : Name} {rest : List (Name × Name)} {l : Links} (h : Bends f aka name l) :
    Closes f ((aka, name) :: rest) l
  | later {aka name : Name} {rest : List (Name × Name)} {l l' : Links}
    (hr : renameLink f aka name l = .ok l') (h : Closes f rest l') :
    Closes f ((aka, name) :: rest) l

theorem renameAll_cons_ok {rest : List (Name × Name)} (hr : renameLink f aka name l = .ok l') :
    renameAll f ((aka, name) :: rest) l = renameAll f rest l' := by
  rw [renameAll, hr]

theorem renameLink_of_bends (h : Bends f aka name l) : ∃ l', renameLink f aka name l = .ok l' := by
  obtain ⟨newName, ha, hn, hs, hne, -⟩ := h
  refine ⟨l.insert newName aka, ?_⟩
  simp only [renameLink, ha, hn, Ne.symm hs, hne, ↓reduceIte]

theorem Acyclic.renameAll (h : l.Acyclic) (hc : ¬Closes f order l) (k : Nat) :
    (Links.renameAll f (order.take k) l).2.Acyclic := by
  induction k generalizing order l with
  | zero => exact h
  | succ k ih =>
    obtain - | ⟨⟨aka, name⟩, rest⟩ := order
    · exact h
    rw [List.take_succ_cons]
    cases hr : renameLink f aka name l with
    | error fault =>
      rw [Links.renameAll, hr]
      exact h
    | ok l' =>
      rw [renameAll_cons_ok hr]
      exact ih ((h.renameLink_iff hr).2 fun hb => hc (.now hb)) fun hl => hc (.later hr hl)

theorem Acyclic.exists_circle (h : l.Acyclic) (hc : Closes f order l) :
    ∃ k, ¬(Links.renameAll f (order.take k) l).2.Acyclic := by
  induction hc with
  | @now aka name rest l hb =>
    obtain ⟨l', hr⟩ := renameLink_of_bends hb
    refine ⟨1, ?_⟩
    rw [List.take_succ_cons, renameAll_cons_ok hr]
    exact fun hac => (h.renameLink_iff hr).1 hac hb
  | @later aka name rest l l' hr _ ih =>
    by_cases hl : l'.Acyclic
    · obtain ⟨k, hk⟩ := ih hl
      refine ⟨k + 1, ?_⟩
      rwa [List.take_succ_cons, renameAll_cons_ok hr]
    · refine ⟨1, ?_⟩
      rwa [List.take_succ_cons, renameAll_cons_ok hr]

theorem not_closes_of_fixed
    (hf : ∀ link ∈ order, f link.1 = some link.1 → f link.2 ∈ [none, some link.1, some link.2]) :
    ¬Closes f order l := by
  intro hc
  induction hc with
  | now hb =>
    obtain ⟨newName, ha, hn, hs, hne, -⟩ := hb
    have hmem := hf _ List.mem_cons_self ha
    simp only [hn, List.mem_cons, reduceCtorEq, Option.some.injEq, List.not_mem_nil, or_false,
      false_or] at hmem
    exact hmem.elim hs hne
  | later _ _ ih => exact ih fun link hlink => hf link (List.mem_cons_of_mem _ hlink)

/-- Whatever the order in which links are renamed, and whether all of them are or a clash ends it, a
circle comes about just when some link bends. If none does then every name still has an end to its
chain. In particular that is so if every target stays whose alias stays, unless the link is
dropped. -/
theorem circles_come_of_bent_links (h : l.Acyclic) (f : Name → Option Name)
    (order : List (Name × Name)) :
    ((∃ k, ¬(renameAll f (order.take k) l).2.Acyclic) ↔ Closes f order l) ∧
      (¬Closes f order l → (renameAll f order l).2.Acyclic ∧
        ∀ n, (renameAll f order l).2.chainEnd? (renameAll f order l).2.target.size n =
          some ((renameAll f order l).2.canonical n)) ∧
      ((∀ link ∈ order, f link.1 = some link.1 → f link.2 ∈ [none, some link.1, some link.2]) →
        ¬Closes f order l) := by
  refine ⟨⟨fun ⟨k, hk⟩ => ?_, h.exists_circle⟩, fun hc => ?_, not_closes_of_fixed⟩
  · exact Classical.byContradiction fun hc => hk (h.renameAll hc k)
  · have hac := h.renameAll hc order.length
    rw [List.take_length] at hac
    exact ⟨hac, hac.chainEnd?_eq_canonical⟩

section Crossed

def crossed : Links := (Op.link "d" "c").update ((Op.link "b" "a").update {})

def crossing (n : Name) : Option Name :=
  if n = "b" then some "c" else if n = "d" then some "a" else some n

theorem crossed_acyclic : crossed.Acyclic :=
  (((Built.empty true).link "b" "a").link "d" "c").acyclic

theorem circles_come_of_bent_links_crossed :
    crossed.Acyclic ∧ Closes crossing crossed.target.toList crossed ∧
      ∃ k, ¬(renameAll crossing (crossed.target.toList.take k) crossed).2.Acyclic := by
  have hlist : crossed.target.toList = [("a", "b"), ("c", "d")] := by decide
  have hfirst : renameLink crossing "a" "b" crossed = .ok (crossed.insert "c" "a") := by rfl
  have hpath : ReflTransGen (crossed.insert "c" "a").Points "a" "c" :=
    .single (points_insert.2 (.inl ⟨rfl, rfl⟩))
  have hc : Closes crossing crossed.target.toList crossed := by
    rw [hlist]
    exact .later hfirst (.now ⟨"a", by decide, by decide, by decide, by decide, hpath⟩)
  exact ⟨crossed_acyclic, hc, (circles_come_of_bent_links crossed_acyclic _ _).1.2 hc⟩

/-- Links that run in no circle are all renamed, in whatever order, and then run in one. -/
theorem circle_of_renamed_links :
    crossed.Acyclic ∧ crossed.target.toList = [("a", "b"), ("c", "d")] ∧
      ∀ order ∈ [[("a", "b"), ("c", "d")], [("c", "d"), ("a", "b")]],
        (renameAll crossing order crossed).1 = none ∧
          ¬(renameAll crossing order crossed).2.Acyclic := by
  refine ⟨crossed_acyclic, by decide, fun order ho => ?_⟩
  have hends : (renameAll crossing order crossed).1 = none ∧
      (renameAll crossing order crossed).2.target["a"]? = some "c" ∧
      (renameAll crossing order crossed).2.target["c"]? = some "a" := by
    revert order
    decide
  obtain ⟨hok, ha, hc⟩ := hends
  exact ⟨hok, fun hac => hac "a" (.head (b := "c") ha (.single hc))⟩

end Crossed

end ObjectRegistry.Links
