import Mathlib.Data.List.Chain
import ObjectRegistry.Proofs.Visits

namespace ObjectRegistry

def OnCircle (next : Name → List Name) (n : Name) : Prop :=
  Relation.TransGen (fun a b => b ∈ next a) n n

/-- Where a search stopped: the names that it opened on its way there, outermost first, and the
open name that was wanted again. -/
structure Snag where
  path : List Name
  name : Name

/-- The search comes from the names `listed` to `listed'` while the names of `opened` are open. It
opens the names `begun`, in this order, and either is done with `waiting` or stops at a snag. -/
inductive Probes (next : Name → List Name) :
    (opened listed waiting begun listed' : List Name) → Option Snag → Prop where
  | nil (opened listed : List Name) : Probes next opened listed [] [] listed none
  | again {opened listed waiting begun listed' : List Name} {n : Name} {snag : Option Snag}
    (hn : n ∈ listed) (rest : Probes next opened listed waiting begun listed' snag) :
    Probes next opened listed (n :: waiting) begun listed' snag
  | snag {opened listed waiting : List Name} {n : Name} (hn : n ∉ listed) (ho : n ∈ opened) :
    Probes next opened listed (n :: waiting) [] listed (some ⟨[], n⟩)
  | within {opened listed waiting begun listed' path : List Name} {n c : Name} (hn : n ∉ listed)
    (ho : n ∉ opened)
    (deep : Probes next (n :: opened) listed (next n) begun listed' (some ⟨path, c⟩)) :
    Probes next opened listed (n :: waiting) (n :: begun) listed' (some ⟨n :: path, c⟩)
  | first {opened listed waiting begun between begun' listed' : List Name} {n : Name}
    {snag : Option Snag} (hn : n ∉ listed) (ho : n ∉ opened)
    (deep : Probes next (n :: opened) listed (next n) begun between none)
    (rest : Probes next opened (between ++ [n]) waiting begun' listed' snag) :
    Probes next opened listed (n :: waiting) (n :: (begun ++ begun')) listed' snag

structure Ordered (next : Name → List Name) (listed : List Name) : Prop where
  nodup : listed.Nodup
  needs : ∀ before n after, listed = before ++ n :: after → next n ⊆ before

namespace Ordered

variable {next : Name → List Name} {listed : List Name} {a b n : Name}

theorem nil (next : Name → List Name) : Ordered next [] where
  nodup := List.nodup_nil
  needs _ _ _ h := by cases List.append_eq_nil_iff.1 h.symm |>.2

theorem concat (h : Ordered next listed) (hn : n ∉ listed) (hs : next n ⊆ listed) :
    Ordered next (listed ++ [n]) where
  nodup := by
    rw [← List.concat_eq_append]
    exact h.nodup.concat hn
  needs before k after hk := by
    obtain rfl | ⟨after', last, rfl⟩ := List.eq_nil_or_concat after
    · obtain ⟨rfl, hlast⟩ := List.append_inj' hk rfl
      cases hlast
      exact hs
    · rw [List.concat_eq_append, ← List.cons_append, ← List.append_assoc] at hk
      obtain ⟨hk, -⟩ := List.append_inj' hk rfl
      exact h.needs before k after' hk

variable (h : Ordered next listed) (ha : a ∈ listed)
include h ha

theorem reaches (hab : Reaches next a b) : b ∈ listed := by
  induction hab with
  | refl => exact ha
  | tail _ hbc ih =>
    obtain ⟨before, after, rfl⟩ := List.append_of_mem ih
    exact List.mem_append_left _ (h.needs before _ after rfl hbc)

theorem not_onCircle : ¬OnCircle next a := by
  obtain ⟨before, after, rfl⟩ := List.append_of_mem ha
  have hbefore : ∀ b, Relation.TransGen (fun a b => b ∈ next a) a b → b ∈ before := by
    intro b hab
    induction hab with
    | single hb => exact h.needs before a after rfl hb
    | tail _ hbc ih =>
      obtain ⟨before', after', rfl⟩ := List.append_of_mem ih
      rw [List.append_assoc, List.cons_append] at h
      exact List.mem_append_left _ (h.needs before' _ _ rfl hbc)
  intro hc
  exact (List.nodup_append.1 h.nodup).2.2 a (hbefore a hc) a List.mem_cons_self rfl

theorem not_onCircle_of_reaches (hab : Reaches next a b) : ¬OnCircle next b :=
  h.not_onCircle (h.reaches ha hab)

end Ordered

namespace Snag

def leftOpen : Option Snag → List Name
  | none => []
  | some s => s.path

/-- The snag is a circle that a path from `root` runs into. -/
structure From (next : Name → List Name) (root : Name) (s : Snag) : Prop where
  root : s.path.head? = some root
  chain : (s.path ++ [s.name]).IsChain fun a b => b ∈ next a
  nodup : s.path.Nodup
  closes : s.name ∈ s.path

variable {next : Name → List Name} {root : Name} {s : Snag}

theorem transGen_of_chain {R : Name → Name → Prop} {a b : Name} {l : List Name}
    (h : (a :: (l ++ [b])).IsChain R) : Relation.TransGen R a b := by
  induction l generalizing a with
  | nil => exact .single (List.isChain_pair.1 h)
  | cons k l ih =>
    rw [List.cons_append, List.isChain_cons_cons] at h
    exact .head h.1 (ih h.2)

namespace From

theorem onCircle (h : s.From next root) : OnCircle next s.name := by
  obtain ⟨before, after, hpath⟩ := List.append_of_mem h.closes
  have hc := h.chain
  rw [hpath, List.append_assoc] at hc
  exact transGen_of_chain hc.right_of_append

theorem reaches (h : s.From next root) : Reaches next root s.name := by
  obtain ⟨path, c⟩ := s
  obtain ⟨rest, rfl⟩ := List.head?_eq_some_iff.1 h.root
  exact (transGen_of_chain h.chain).to_reflTransGen

end From

end Snag

namespace Probes

variable {next : Name → List Name} {opened listed waiting begun listed' : List Name} {n root : Name}
  {snag : Option Snag} {s : Snag}

theorem append {between others begun' : List Name} {snag' : Option Snag}
    (h : Probes next opened listed waiting begun between snag) (hs : snag = none)
    (h' : Probes next opened between others begun' listed' snag') :
    Probes next opened listed (waiting ++ others) (begun ++ begun') listed' snag' := by
  induction h with
  | nil => exact h'
  | again hn _ ih => exact .again hn (ih hs h')
  | snag | within => cases hs
  | first hn ho deep _ _ ih =>
    rw [List.cons_append, List.cons_append, List.append_assoc]
    exact .first hn ho deep (ih hs h')

theorem append_of_snag (h : Probes next opened listed waiting begun listed' snag)
    (hs : snag = some s) (others : List Name) :
    Probes next opened listed (waiting ++ others) begun listed' snag := by
  induction h with
  | nil => cases hs
  | again hn _ ih => exact .again hn (ih hs)
  | snag hn ho => exact .snag hn ho
  | within hn ho deep _ => exact .within hn ho deep
  | first hn ho deep _ _ ih => exact .first hn ho deep (ih hs)

theorem subset (h : Probes next opened listed waiting begun listed' snag) : listed ⊆ listed' := by
  induction h with
  | nil | snag => exact List.Subset.refl _
  | again _ _ ih => exact ih
  | within _ _ _ ih => exact ih
  | first _ _ _ _ ihd ihr =>
    rw [List.append_subset] at ihr
    exact List.Subset.trans ihd ihr.1

theorem waiting_subset (h : Probes next opened listed waiting begun listed' snag)
    (hs : snag = none) : waiting ⊆ listed' := by
  induction h with
  | nil => exact List.nil_subset _
  | again hn rest ih => exact List.cons_subset.2 ⟨rest.subset hn, ih hs⟩
  | snag | within => cases hs
  | first _ _ _ rest _ ihr =>
    refine List.cons_subset.2 ⟨rest.subset ?_, ihr hs⟩
    exact List.mem_append_right _ (List.mem_singleton_self _)

theorem not_opened (h : Probes next opened listed waiting begun listed' snag) (hn : n ∈ listed')
    (hl : n ∉ listed) : n ∉ opened := by
  induction h with
  | nil | snag => exact absurd hn hl
  | again _ _ ih => exact ih hn hl
  | within _ _ _ ih => exact fun ho => ih hn hl (List.mem_cons_of_mem _ ho)
  | @first _ _ _ _ between _ _ k _ _ hk _ _ ihd ihr =>
    by_cases hb : n ∈ between ++ [k]
    · obtain hb | hb := List.mem_append.1 hb
      · exact fun ho => ihd hb hl (List.mem_cons_of_mem _ ho)
      · exact List.mem_singleton.1 hb ▸ hk
    · exact ihr hn hb

theorem ordered (h : Probes next opened listed waiting begun listed' snag)
    (ho : Ordered next listed) : Ordered next listed' := by
  induction h with
  | nil | snag => exact ho
  | again _ _ ih => exact ih ho
  | within _ _ _ ih => exact ih ho
  | first hn _ deep _ ihd ihr =>
    exact ihr ((ihd ho).concat (fun hb => deep.not_opened hb hn List.mem_cons_self)
      (deep.waiting_subset rfl))

theorem perm (h : Probes next opened listed waiting begun listed' snag) :
    (listed ++ begun).Perm (listed' ++ Snag.leftOpen snag) := by
  induction h with
  | nil | snag => exact .refl _
  | again _ _ ih => exact ih
  | @within _ _ _ _ _ _ n _ _ _ _ ih =>
    exact List.perm_middle.trans ((ih.cons n).trans List.perm_middle.symm)
  | @first _ listed _ begun between begun' _ n _ _ _ _ _ ihd ihr =>
    have hd : (listed ++ begun).Perm between := by
      rwa [Snag.leftOpen, List.append_nil] at ihd
    have hn : (listed ++ n :: (begun ++ begun')).Perm (n :: (listed ++ begun ++ begun')) := by
      rw [List.append_assoc]
      exact List.perm_middle
    have hb : (n :: (listed ++ begun ++ begun')).Perm (between ++ n :: begun') :=
      ((hd.append_right begun').cons n).trans List.perm_middle.symm
    rw [List.append_cons between] at hb
    exact hn.trans (hb.trans ihr)

theorem reaches_of_listed (h : Probes next opened listed waiting begun listed' snag)
    (hn : n ∈ listed') : n ∈ listed ∨ ∃ d ∈ waiting, Reaches next d n := by
  induction h with
  | nil | snag => exact .inl hn
  | again _ _ ih =>
    obtain hl | ⟨d, hd, hr⟩ := ih hn
    · exact .inl hl
    · exact .inr ⟨d, List.mem_cons_of_mem _ hd, hr⟩
  | @within _ _ _ _ _ _ k _ _ _ _ ih =>
    obtain hl | ⟨d, hd, hr⟩ := ih hn
    · exact .inl hl
    · exact .inr ⟨k, List.mem_cons_self, .head hd hr⟩
  | @first _ _ _ _ _ _ _ k _ _ _ _ _ ihd ihr =>
    obtain hb | ⟨d, hd, hr⟩ := ihr hn
    · obtain hb | hk := List.mem_append.1 hb
      · obtain hl | ⟨d, hd, hr⟩ := ihd hb
        · exact .inl hl
        · exact .inr ⟨k, List.mem_cons_self, .head hd hr⟩
      · exact .inr ⟨k, List.mem_cons_self, List.mem_singleton.1 hk ▸ .refl⟩
    · exact .inr ⟨d, List.mem_cons_of_mem _ hd, hr⟩

theorem snag_path (h : Probes next opened listed waiting begun listed' snag)
    (hs : snag = some s) :
    (∀ d ∈ (s.path ++ [s.name]).head?, d ∈ waiting) ∧
      ((s.path ++ [s.name]).IsChain fun a b => b ∈ next a) ∧
      (s.name ∈ s.path ∨ s.name ∈ opened) := by
  induction h generalizing s with
  | nil => cases hs
  | again _ _ ih =>
    obtain ⟨hw, hrest⟩ := ih hs
    exact ⟨fun d hd => List.mem_cons_of_mem _ (hw d hd), hrest⟩
  | snag hn ho =>
    cases hs
    exact ⟨by rintro d ⟨⟩; exact List.mem_cons_self, List.isChain_singleton _, .inr ho⟩
  | @within _ _ _ _ _ _ n c _ _ _ ih =>
    cases hs
    obtain ⟨hw, hc, ho⟩ := ih rfl
    refine ⟨by rintro d ⟨⟩; exact List.mem_cons_self, List.isChain_cons.2 ⟨hw, hc⟩, ?_⟩
    obtain hp | ho := ho
    · exact .inl (List.mem_cons_of_mem _ hp)
    · obtain rfl | ho := List.mem_cons.1 ho
      · exact .inl List.mem_cons_self
      · exact .inr ho
  | first _ _ _ _ _ ihr =>
    obtain ⟨hw, hrest⟩ := ihr hs
    exact ⟨fun d hd => List.mem_cons_of_mem _ (hw d hd), hrest⟩

theorem path_nodup (h : Probes next opened listed waiting begun listed' snag) :
    (Snag.leftOpen snag).Nodup ∧ ∀ n ∈ Snag.leftOpen snag, n ∉ listed' ∧ n ∉ opened := by
  induction h with
  | nil | snag => exact ⟨List.nodup_nil, fun n hn => absurd hn List.not_mem_nil⟩
  | again _ _ ih => exact ih
  | within hn ho deep ih =>
    obtain ⟨hnodup, hfresh⟩ := ih
    refine ⟨List.nodup_cons.2 ⟨fun hp => (hfresh _ hp).2 List.mem_cons_self, hnodup⟩, ?_⟩
    intro k hk
    obtain rfl | hk := List.mem_cons.1 hk
    · exact ⟨fun hl => deep.not_opened hl hn List.mem_cons_self, ho⟩
    · exact ⟨(hfresh k hk).1, fun ho => (hfresh k hk).2 (List.mem_cons_of_mem _ ho)⟩
  | first _ _ _ _ _ ihr => exact ihr

section Root

variable (h : Probes next [] [] [root] begun listed' snag)
include h

theorem begun_perm : begun.Perm (listed' ++ Snag.leftOpen snag) := h.perm

theorem begun_nodup : begun.Nodup := by
  obtain ⟨hpath, hfresh⟩ := h.path_nodup
  rw [h.begun_perm.nodup_iff, List.nodup_append]
  refine ⟨(h.ordered (.nil next)).nodup, hpath, fun a ha b hb hab => ?_⟩
  exact (hfresh b hb).1 (hab ▸ ha)

theorem mem_iff (hs : snag = none) : n ∈ listed' ↔ Reaches next root n := by
  constructor
  · intro hn
    obtain hl | ⟨d, hd, hr⟩ := h.reaches_of_listed hn
    · cases hl
    · exact List.mem_singleton.1 hd ▸ hr
  · exact (h.ordered (.nil next)).reaches (h.waiting_subset hs (List.mem_singleton_self root))

theorem snag_from (hs : snag = some s) : s.From next root := by
  obtain ⟨hw, hc, ho⟩ := h.snag_path hs
  have hp : s.name ∈ s.path := ho.resolve_right List.not_mem_nil
  obtain ⟨first, rest, hpath⟩ := List.exists_cons_of_ne_nil (List.ne_nil_of_mem hp)
  refine ⟨?_, hc, ?_, hp⟩
  · rw [hpath] at hw ⊢
    rw [List.mem_singleton.1 (hw first rfl)]
    rfl
  · have hnodup := h.path_nodup.1
    rwa [hs] at hnodup

theorem snag_iff : snag = none ↔ ¬∃ c, Reaches next root c ∧ OnCircle next c := by
  constructor
  · rintro hs ⟨c, hr, hc⟩
    have hroot := h.waiting_subset hs (List.mem_singleton_self root)
    exact (h.ordered (.nil next)).not_onCircle_of_reaches hroot hr hc
  · intro hno
    cases hs : snag with
    | none => rfl
    | some s => exact absurd ⟨_, (h.snag_from hs).reaches, (h.snag_from hs).onCircle⟩ hno

end Root

end Probes

end ObjectRegistry
