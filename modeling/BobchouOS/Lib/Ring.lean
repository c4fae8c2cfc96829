import Mathlib

namespace lib

/-- A store of doubly linked nodes. `none` is a null pointer. -/
structure Links (ν : Type) where
  next : ν → Option ν := fun _ => none
  prev : ν → Option ν := fun _ => none

namespace Links

variable {ν : Type} [DecidableEq ν] {l l' : Links ν} {h g e p n x : ν} {xs ys zs : List ν}

def setNext (a : ν) (v : Option ν) (l : Links ν) : Links ν := { l with next := Function.update l.next a v }

def setPrev (a : ν) (v : Option ν) (l : Links ν) : Links ν := { l with prev := Function.update l.prev a v }

/-- The two nodes point at each other. -/
def Adj (l : Links ν) (a b : ν) : Prop := l.next a = some b ∧ l.prev b = some a

/-- A circular list through `h` with the other nodes `xs` in order. -/
structure Ring (l : Links ν) (h : ν) (xs : List ν) : Prop where
  linked : (h :: (xs ++ [h])).IsChain l.Adj
  nodup : (h :: xs).Nodup

instance decidableAdj (l : Links ν) (a b : ν) : Decidable (l.Adj a b) :=
  inferInstanceAs (Decidable (l.next a = some b ∧ l.prev b = some a))

instance decidableRing (l : Links ν) (h : ν) (xs : List ν) : Decidable (l.Ring h xs) :=
  decidable_of_iff ((h :: (xs ++ [h])).IsChain l.Adj ∧ (h :: xs).Nodup)
    ⟨fun hring => ⟨hring.1, hring.2⟩, fun hring => ⟨hring.linked, hring.nodup⟩⟩

omit [DecidableEq ν] in
/-- A chain reads `next` of all nodes but the last and `prev` of all but the first. -/
theorem isChain_congr (hchain : zs.IsChain l.Adj) (hnext : ∀ a ∈ zs.dropLast, l'.next a = l.next a)
    (hprev : ∀ a ∈ zs.tail, l'.prev a = l.prev a) : zs.IsChain l'.Adj := by
  induction zs with
  | nil => exact .nil
  | cons a zs ih =>
    cases zs with
    | nil => exact .singleton a
    | cons b zs =>
      rw [List.isChain_cons_cons] at hchain ⊢
      refine ⟨⟨?_, ?_⟩, ih hchain.2 ?_ ?_⟩
      · rw [hnext a (by simp)]
        exact hchain.1.1
      · rw [hprev b (by simp)]
        exact hchain.1.2
      · exact fun c hc => hnext c (by simp [hc])
      · exact fun c hc => hprev c (List.mem_of_mem_tail hc)

namespace Ring

omit [DecidableEq ν] in
theorem congr (hring : l.Ring h xs) (heq : ∀ a ∈ h :: xs, l'.next a = l.next a ∧ l'.prev a = l.prev a) :
    l'.Ring h xs := by
  refine ⟨isChain_congr hring.linked ?_ ?_, hring.nodup⟩
  · intro a ha
    rw [← List.cons_append, List.dropLast_concat] at ha
    exact (heq a ha).1
  · intro a ha
    refine (heq a ?_).2
    simp only [List.tail_cons, List.mem_append, List.mem_singleton] at ha
    simpa [or_comm] using ha

omit [DecidableEq ν] in
theorem cons_eq_concat (h : ν) (xs : List ν) : h :: xs = (h :: xs).dropLast ++ [xs.getLastD h] := by
  rw [← List.getLast_eq_getLastD (List.cons_ne_nil h xs), List.dropLast_append_getLast]

omit [DecidableEq ν] in
theorem concat_eq_cons (h : ν) (ys : List ν) : ys ++ [h] = ys.headD h :: (ys ++ [h]).tail := by
  cases ys <;> rfl

omit [DecidableEq ν] in
theorem getLastD_mem (h : ν) (xs : List ν) : xs.getLastD h ∈ h :: xs := by
  rw [cons_eq_concat h xs]
  simp

omit [DecidableEq ν] in
theorem headD_mem (h : ν) (ys : List ν) : ys.headD h ∈ h :: ys := by
  cases ys <;> simp

omit [DecidableEq ν] in
/-- A ring cut open at one place. -/
theorem cut (hchain : (h :: (xs ++ ys ++ [h])).IsChain l.Adj) : (h :: xs).IsChain l.Adj ∧
    (ys ++ [h]).IsChain l.Adj ∧ l.Adj (xs.getLastD h) (ys.headD h) := by
  rw [List.append_assoc, ← List.cons_append, List.isChain_append] at hchain
  refine ⟨hchain.1, hchain.2.1, hchain.2.2 _ ?_ _ ?_⟩
  · rw [cons_eq_concat h xs]
    simp
  · rw [concat_eq_cons h ys]
    simp

omit [DecidableEq ν] in
/-- The two halves do not see a change of the links at the cut. -/
theorem halves (hnodup : (h :: (xs ++ ys)).Nodup) (hleft : (h :: xs).IsChain l.Adj)
    (hright : (ys ++ [h]).IsChain l.Adj)
    (hnext : ∀ a ∈ h :: (xs ++ ys), a ≠ xs.getLastD h → l'.next a = l.next a)
    (hprev : ∀ a ∈ h :: (xs ++ ys), a ≠ ys.headD h → l'.prev a = l.prev a) :
    (h :: xs).IsChain l'.Adj ∧ (ys ++ [h]).IsChain l'.Adj := by
  have hsplit := List.nodup_append.mp (List.cons_append ▸ hnodup)
  constructor
  · refine isChain_congr hleft ?_ ?_
    · intro a ha
      have hxs := hsplit.1
      rw [cons_eq_concat h xs, List.nodup_append] at hxs
      refine hnext a ?_ (hxs.2.2 a ha _ (by simp))
      rw [← List.cons_append]
      exact List.mem_append_left _ (List.dropLast_sublist _ |>.mem ha)
    · intro a ha
      rw [List.tail_cons] at ha
      refine hprev a (by simp [ha]) ?_
      rintro rfl
      rcases List.mem_cons.mp (headD_mem h ys) with heq | hys
      · rw [heq] at ha
        simp [ha] at hnodup
      · exact hsplit.2.2 _ (List.mem_cons_of_mem _ ha) _ hys rfl
  · refine isChain_congr hright ?_ ?_
    · intro a ha
      rw [List.dropLast_concat] at ha
      refine hnext a (by simp [ha]) ?_
      rintro rfl
      exact hsplit.2.2 _ (getLastD_mem h xs) _ ha rfl
    · intro a ha
      cases ys with
      | nil => cases ha
      | cons y ys =>
        refine hprev a ?_ ?_
        · simp only [List.cons_append, List.tail_cons, List.mem_append, List.mem_singleton] at ha
          rcases ha with ha | rfl
          · simp [ha]
          · simp
        · rintro rfl
          simp only [List.cons_append, List.tail_cons, List.mem_append, List.mem_singleton] at ha
          rcases ha with ha | rfl
          · exact (List.nodup_cons.mp hsplit.2.1).1 ha
          · simp at hnodup

omit [DecidableEq ν] in
/-- Reading the links around a place of the ring. -/
theorem adj (xs ys : List ν) (hring : l.Ring h (xs ++ ys)) : l.Adj (xs.getLastD h) (ys.headD h) := (cut hring.linked).2.2

end Ring

/-- The writes that put `e` between `p` and `n`. -/
def link (p e n : ν) (l : Links ν) : Links ν :=
  (((l.setNext p e).setNext e n).setPrev n e).setPrev e p

/-- The writes that join `p` and `n`. -/
def join (p n : ν) (l : Links ν) : Links ν := (l.setNext p n).setPrev n p

/-- A node that points at itself. -/
def loop (e : ν) (l : Links ν) : Links ν := (l.setNext e e).setPrev e e

section links

variable {a : ν}

theorem link_next_of_ne (hp : a ≠ p) (he : a ≠ e) : (l.link p e n).next a = l.next a := by
  simp [link, setNext, setPrev, hp, he]

theorem link_prev_of_ne (hn : a ≠ n) (he : a ≠ e) : (l.link p e n).prev a = l.prev a := by
  simp [link, setNext, setPrev, hn, he]

theorem link_adj_left (hp : p ≠ e) : (l.link p e n).Adj p e := by
  simp [Adj, link, setNext, setPrev, hp]

theorem link_adj_right (hn : n ≠ e) : (l.link p e n).Adj e n := by
  simp [Adj, link, setNext, setPrev, hn]

theorem join_next_of_ne (hp : a ≠ p) : (l.join p n).next a = l.next a := by
  simp [join, setNext, setPrev, hp]

theorem join_prev_of_ne (hn : a ≠ n) : (l.join p n).prev a = l.prev a := by
  simp [join, setNext, setPrev, hn]

theorem join_adj : (l.join p n).Adj p n := by
  simp [Adj, join, setNext, setPrev]

end links

namespace Ring

theorem insert (hring : l.Ring h (xs ++ ys)) (he : e ∉ h :: (xs ++ ys)) :
    (l.link (xs.getLastD h) e (ys.headD h)).Ring h (xs ++ e :: ys) := by
  obtain ⟨hleft, hright, -⟩ := cut hring.linked
  have hne : ∀ a ∈ h :: (xs ++ ys), a ≠ e := fun a ha heq => he (heq ▸ ha)
  have hp : xs.getLastD h ≠ e := by
    refine hne _ ?_
    rw [← List.cons_append]
    exact List.mem_append_left _ (getLastD_mem h xs)
  have hn : ys.headD h ≠ e := by
    refine hne _ ?_
    exact List.cons_subset_cons h (List.subset_append_right xs ys) (headD_mem h ys)
  have hhalves : (h :: xs).IsChain (l.link (xs.getLastD h) e (ys.headD h)).Adj ∧
      (ys ++ [h]).IsChain (l.link (xs.getLastD h) e (ys.headD h)).Adj := by
    refine halves hring.nodup hleft hright ?_ ?_
    · exact fun a ha hap => link_next_of_ne hap (hne a ha)
    · exact fun a ha han => link_prev_of_ne han (hne a ha)
  refine ⟨?_, ?_⟩
  · rw [List.append_assoc, ← List.cons_append, List.isChain_append]
    refine ⟨hhalves.1, ?_, ?_⟩
    · rw [List.cons_append, concat_eq_cons h ys, List.isChain_cons_cons, ← concat_eq_cons h ys]
      exact ⟨link_adj_right hn, hhalves.2⟩
    · rw [cons_eq_concat h xs]
      simp only [List.getLast?_append, List.getLast?_singleton, List.cons_append, List.head?_cons, Option.mem_def,
        Option.some_or, Option.some.injEq]
      rintro _ rfl _ rfl
      exact link_adj_left hp
  · have hperm : (e :: (h :: (xs ++ ys))).Nodup := List.nodup_cons.mpr ⟨he, hring.nodup⟩
    refine hperm.perm ?_
    refine (List.Perm.swap h e _).trans (List.Perm.cons h ?_)
    exact List.perm_middle.symm

theorem remove (hring : l.Ring h (xs ++ e :: ys)) :
    (l.join (xs.getLastD h) (ys.headD h)).Ring h (xs ++ ys) := by
  have hnodup : (h :: (xs ++ ys)).Nodup := by
    refine hring.nodup.sublist (List.Sublist.cons_cons h ?_)
    exact List.Sublist.append_left (List.sublist_cons_self e ys) xs
  obtain ⟨hleft, hright, -⟩ := cut hring.linked
  have hhalves : (h :: xs).IsChain (l.join (xs.getLastD h) (ys.headD h)).Adj ∧
      (ys ++ [h]).IsChain (l.join (xs.getLastD h) (ys.headD h)).Adj := by
    refine halves hnodup hleft hright.tail ?_ ?_
    · exact fun a _ hap => join_next_of_ne hap
    · exact fun a _ han => join_prev_of_ne han
  refine ⟨?_, hnodup⟩
  rw [List.append_assoc, ← List.cons_append, List.isChain_append]
  refine ⟨hhalves.1, hhalves.2, ?_⟩
  rw [cons_eq_concat h xs, concat_eq_cons h ys]
  simp only [List.getLast?_append, List.getLast?_singleton, List.head?_cons, Option.mem_def, Option.some_or,
    Option.some.injEq]
  rintro _ rfl _ rfl
  exact join_adj

theorem loop (l : Links ν) (e : ν) : (l.loop e).Ring e [] := by
  refine ⟨List.isChain_pair.mpr ⟨?_, ?_⟩, by simp⟩
  · simp [Links.loop, setNext, setPrev]
  · simp [Links.loop, setNext, setPrev]

omit [DecidableEq ν] in
/-- The inner links of a ring do not see its head. -/
theorem inner (hring : l.Ring g xs) : xs.IsChain l.Adj := by
  have hchain := hring.linked.tail
  rw [List.tail_cons, List.isChain_append] at hchain
  exact hchain.1

/-- The nodes of one ring behind another head. -/
theorem rehead (hring : l.Ring g (x :: xs)) (hh : h ∉ x :: xs) :
    ((l.join h x).join (xs.getLastD x) h).Ring h (x :: xs) := by
  obtain ⟨hx, hxs⟩ := List.nodup_cons.mp (List.nodup_cons.mp hring.nodup).2
  have hlast : xs.getLastD x ≠ h := fun heq => hh (heq ▸ getLastD_mem x xs)
  have hinner : (x :: xs).IsChain ((l.join h x).join (xs.getLastD x) h).Adj := by
    refine isChain_congr hring.inner ?_ ?_
    · intro a ha
      have hsplit := cons_eq_concat x xs ▸ List.nodup_cons.mpr ⟨hx, hxs⟩
      rw [join_next_of_ne ((List.nodup_append.mp hsplit).2.2 a ha _ (by simp)), join_next_of_ne]
      exact fun heq => hh (heq ▸ (List.dropLast_sublist _).mem ha)
    · intro a ha
      rw [List.tail_cons] at ha
      rw [join_prev_of_ne, join_prev_of_ne]
      · exact fun heq => hx (heq ▸ ha)
      · exact fun heq => hh (heq ▸ List.mem_cons_of_mem _ ha)
  refine ⟨?_, List.nodup_cons.mpr ⟨hh, (List.nodup_cons.mp hring.nodup).2⟩⟩
  rw [List.cons_append, List.isChain_cons_cons, ← List.cons_append, List.isChain_append]
  refine ⟨⟨?_, ?_⟩, hinner, .singleton h, ?_⟩
  · rw [join_next_of_ne hlast.symm]
    exact join_adj.1
  · have hxh : x ≠ h := fun heq => hh (heq ▸ List.mem_cons_self)
    rw [join_prev_of_ne hxh]
    exact join_adj.2
  · rw [cons_eq_concat x xs]
    simp only [List.getLast?_append, List.getLast?_singleton, List.head?_cons, Option.mem_def, Option.some_or,
      Option.some.injEq]
    rintro _ rfl _ rfl
    exact join_adj

omit [DecidableEq ν] in
/-- The links determine the nodes of a ring and their order. -/
theorem unique (hxs : l.Ring h xs) (hys : l.Ring h ys) : xs = ys := by
  have hwalk : ∀ (xs ys : List ν) (a : ν), h ∉ xs → h ∉ ys → (a :: (xs ++ [h])).IsChain l.Adj →
      (a :: (ys ++ [h])).IsChain l.Adj → xs = ys := by
    intro xs
    induction xs with
    | nil =>
      intro ys a _ hh hx hy
      cases ys with
      | nil => rfl
      | cons y ys =>
        have hnext := hx.rel.1.symm.trans hy.rel.1
        simp_all
    | cons x xs ih =>
      intro ys a hhx hhy hx hy
      cases ys with
      | nil =>
        have hnext := hx.rel.1.symm.trans hy.rel.1
        simp_all
      | cons y ys =>
        have hnext : x = y := Option.some.inj (hx.rel.1.symm.trans hy.rel.1)
        subst hnext
        rw [ih ys x (fun hm => hhx (by simp [hm])) (fun hm => hhy (by simp [hm])) hx.tail hy.tail]
  exact hwalk xs ys h (List.nodup_cons.mp hxs.nodup).1 (List.nodup_cons.mp hys.nodup).1 hxs.linked hys.linked

end Ring

/-- Several rings without common nodes, given by their heads. -/
structure Family (l : Links ν) (lists : ν → Option (List ν)) : Prop where
  ring : ∀ {h xs}, lists h = some xs → l.Ring h xs
  disjoint : ∀ {h xs g ys a}, lists h = some xs → lists g = some ys → a ∈ h :: xs → a ∈ g :: ys → h = g

/-- The node is on no list, except that it may be an empty list itself. -/
def Free (lists : ν → Option (List ν)) (e : ν) : Prop :=
  ∀ ⦃g zs⦄, lists g = some zs → e ∈ g :: zs → g = e ∧ zs = []

/-- An empty list more does not matter to another node. -/
theorem Free.update {lists : ν → Option (List ν)} (hfree : Free lists e) (hne : e ≠ n) :
    Free (Function.update lists n (some [])) e := by
  intro g zs hg hmem
  by_cases hgn : g = n
  · subst hgn
    rw [Function.update_self] at hg
    cases hg
    exact absurd (List.mem_singleton.mp hmem) hne
  · rw [Function.update_of_ne hgn] at hg
    exact hfree hg hmem

namespace Family

variable {lists lists' : ν → Option (List ν)}

omit [DecidableEq ν] in
theorem mono (hf : l.Family lists) (hle : ∀ h xs, lists' h = some xs → lists h = some xs) : l.Family lists' :=
  ⟨fun hh => hf.ring (hle _ _ hh), fun hh hg => hf.disjoint (hle _ _ hh) (hle _ _ hg)⟩

omit [DecidableEq ν] in
/-- Writes to nodes that are on no list. -/
theorem congr (hf : l.Family lists) (heq : ∀ g zs, lists g = some zs → ∀ a ∈ g :: zs,
    l'.next a = l.next a ∧ l'.prev a = l.prev a) : l'.Family lists :=
  ⟨fun hh => (hf.ring hh).congr (heq _ _ hh), hf.disjoint⟩

/-- One list changes, on its own nodes and a free one. -/
theorem update (hf : l.Family lists) (hh : lists h = some xs) (hring : l'.Ring h ys)
    (hys : ∀ a ∈ ys, a ∈ xs ∨ Free lists a ∧ a ≠ h)
    (hlists : ∀ g zs, lists' g = some zs → g ≠ h → lists g = some zs ∧ g ∉ ys)
    (heq : ∀ a, a ∉ h :: xs → a ∉ ys → l'.next a = l.next a ∧ l'.prev a = l.prev a) (hnew : lists' h = some ys) :
    l'.Family lists' := by
  -- the nodes of another list are neither on the old nor on the new one
  have hother : ∀ g zs, lists' g = some zs → g ≠ h → ∀ a ∈ g :: zs, a ∉ h :: xs ∧ a ∉ ys := by
    intro g zs hg hgh a ha
    obtain ⟨hold, hgys⟩ := hlists g zs hg hgh
    have hxs : a ∉ h :: xs := fun hax => hgh (hf.disjoint hold hh ha hax)
    refine ⟨hxs, fun hay => ?_⟩
    rcases hys a hay with hax | ⟨hfree, -⟩
    · exact hxs (List.mem_cons_of_mem _ hax)
    · obtain ⟨rfl, -⟩ := hfree hold ha
      exact hgys hay
  have hmem : ∀ a ∈ h :: ys, a ∈ h :: xs ∨ a ∈ ys := by
    intro a ha
    rcases List.mem_cons.mp ha with rfl | ha
    · exact .inl List.mem_cons_self
    · exact .inr ha
  refine ⟨?_, ?_⟩
  · intro g zs hg
    by_cases hgh : g = h
    · subst hgh
      rw [hnew] at hg
      cases hg
      exact hring
    · refine (hf.ring (hlists g zs hg hgh).1).congr fun a ha => ?_
      obtain ⟨hax, hay⟩ := hother g zs hg hgh a ha
      exact heq a hax hay
  · intro g zs k ws a hg hk hag hak
    by_cases hgh : g = h
    · by_cases hkh : k = h
      · rw [hgh, hkh]
      · subst hgh
        rw [hnew] at hg
        cases hg
        obtain ⟨hax, hay⟩ := hother k ws hk hkh a hak
        exact absurd (hmem a hag) (not_or.mpr ⟨hax, hay⟩)
    · by_cases hkh : k = h
      · subst hkh
        rw [hnew] at hk
        cases hk
        obtain ⟨hax, hay⟩ := hother g zs hg hgh a hag
        exact absurd (hmem a hak) (not_or.mpr ⟨hax, hay⟩)
      · exact hf.disjoint (hlists g zs hg hgh).1 (hlists k ws hk hkh).1 hag hak

/-- A free node comes onto a list. -/
theorem insert (hf : l.Family lists) (hh : lists h = some (xs ++ ys)) (hfree : Free lists e) (hne : e ≠ h) :
    (l.link (xs.getLastD h) e (ys.headD h)).Family
      (Function.update (Function.update lists e none) h (some (xs ++ e :: ys))) := by
  have he : e ∉ h :: (xs ++ ys) := fun hmem => hne (hfree hh hmem).1.symm
  refine hf.update hh ((hf.ring hh).insert he) ?_ ?_ ?_ (Function.update_self ..)
  · intro a ha
    rcases List.mem_append.mp ha with ha | ha
    · exact .inl (List.mem_append_left _ ha)
    · rcases List.mem_cons.mp ha with rfl | ha
      · exact .inr ⟨hfree, hne⟩
      · exact .inl (List.mem_append_right _ ha)
  · intro g zs hg hgh
    rw [Function.update_of_ne hgh] at hg
    by_cases hge : g = e
    · rw [hge, Function.update_self] at hg
      cases hg
    · rw [Function.update_of_ne hge] at hg
      refine ⟨hg, fun hmem => hgh ?_⟩
      refine hf.disjoint hg hh List.mem_cons_self (List.mem_cons_of_mem _ ?_)
      simpa [hge] using hmem
  · intro a hax hay
    have hae : a ≠ e := by
      rintro rfl
      simp at hay
    refine ⟨link_next_of_ne ?_ hae, link_prev_of_ne ?_ hae⟩
    · rintro rfl
      exact hax (List.cons_subset_cons h (List.subset_append_left xs ys) (Ring.getLastD_mem h xs))
    · rintro rfl
      exact hax (List.cons_subset_cons h (List.subset_append_right xs ys) (Ring.headD_mem h ys))

/-- A node leaves its list. -/
theorem remove (hf : l.Family lists) (hh : lists h = some (xs ++ e :: ys)) :
    (l.join (xs.getLastD h) (ys.headD h)).Family (Function.update lists h (some (xs ++ ys))) := by
  have hsub : ∀ a ∈ xs ++ ys, a ∈ xs ++ e :: ys := fun a ha =>
    (List.Sublist.append_left (List.sublist_cons_self e ys) xs).mem ha
  refine hf.update hh (hf.ring hh).remove (fun a ha => .inl (hsub a ha)) ?_ ?_ (Function.update_self ..)
  · intro g zs hg hgh
    rw [Function.update_of_ne hgh] at hg
    refine ⟨hg, fun hmem => hgh ?_⟩
    exact hf.disjoint hg hh List.mem_cons_self (List.mem_cons_of_mem _ (hsub g hmem))
  · intro a hax _
    refine ⟨join_next_of_ne ?_, join_prev_of_ne ?_⟩
    · rintro rfl
      exact hax (List.cons_subset_cons h (List.subset_append_left xs _) (Ring.getLastD_mem h xs))
    · rintro rfl
      refine hax (List.cons_subset_cons h ?_ (Ring.headD_mem h ys))
      exact List.Subset.trans (List.subset_cons_self e ys) (List.subset_append_right xs _)

omit [DecidableEq ν] in
theorem not_mem_of_split (hf : l.Family lists) (hh : lists h = some (xs ++ e :: ys)) : e ∉ h :: (xs ++ ys) := by
  have hnodup := (hf.ring hh).nodup
  have hperm : (h :: (xs ++ e :: ys)).Perm (e :: h :: (xs ++ ys)) :=
    (List.Perm.cons h List.perm_middle).trans (List.Perm.swap e h _)
  exact (List.nodup_cons.mp (hperm.nodup_iff.mp hnodup)).1

/-- A removed node is on no list. -/
theorem not_mem_of_remove (hf : l.Family lists) (hh : lists h = some (xs ++ e :: ys)) {g : ν} {zs : List ν}
    (hg : Function.update lists h (some (xs ++ ys)) g = some zs) : e ∉ g :: zs := by
  by_cases hgh : g = h
  · subst hgh
    rw [Function.update_self] at hg
    cases hg
    exact hf.not_mem_of_split hh
  · rw [Function.update_of_ne hgh] at hg
    exact fun hmem => hgh (hf.disjoint hg hh hmem (by simp))

/-- A free node becomes an empty list. -/
theorem loop (hf : l.Family lists) (hfree : Free lists e) :
    (l.loop e).Family (Function.update lists e (some [])) := by
  have hne : ∀ g zs, lists g = some zs → g ≠ e → e ∉ g :: zs := fun g zs hg hge hmem =>
    hge (hfree hg hmem).1
  have hother : ∀ g zs, Function.update lists e (some []) g = some zs → g ≠ e → lists g = some zs := by
    intro g zs hg hge
    rwa [Function.update_of_ne hge] at hg
  refine ⟨?_, ?_⟩
  · intro g zs hg
    by_cases hge : g = e
    · subst hge
      rw [Function.update_self] at hg
      cases hg
      exact Ring.loop l g
    · have hold := hother g zs hg hge
      refine (hf.ring hold).congr fun a ha => ?_
      have hae : a ≠ e := fun heq => hne g zs hold hge (heq ▸ ha)
      simp [Links.loop, setNext, setPrev, hae]
  · intro g zs k ws a hg hk hag hak
    by_cases hge : g = e
    · by_cases hke : k = e
      · rw [hge, hke]
      · subst hge
        rw [Function.update_self] at hg
        cases hg
        rw [List.mem_singleton] at hag
        exact absurd (hag ▸ hak) (hne k ws (hother k ws hk hke) hke)
    · by_cases hke : k = e
      · subst hke
        rw [Function.update_self] at hk
        cases hk
        rw [List.mem_singleton] at hak
        exact absurd (hak ▸ hag) (hne g zs (hother g zs hg hge) hge)
      · exact hf.disjoint (hother g zs hg hge) (hother k ws hk hke) hag hak

/-- All nodes of one list move behind an empty head. -/
theorem move (hf : l.Family lists) (hh : lists h = some []) (hg : lists g = some (x :: xs)) :
    ((l.join h x).join (xs.getLastD x) h).Family
      (Function.update (Function.update lists g none) h (some (x :: xs))) := by
  have hgh : g ≠ h := by
    rintro rfl
    simp [hh] at hg
  have hmem : h ∉ x :: xs := fun hmem =>
    hgh (hf.disjoint hg hh (List.mem_cons_of_mem _ hmem) List.mem_cons_self)
  -- without the old head its nodes are free
  have hold : ∀ k zs, Function.update lists g none k = some zs → k ≠ g ∧ lists k = some zs := by
    intro k zs hk
    by_cases hkg : k = g
    · simp [hkg] at hk
    · exact ⟨hkg, by rwa [Function.update_of_ne hkg] at hk⟩
  have hfree : ∀ a ∈ x :: xs, Free (Function.update lists g none) a := by
    intro a ha k zs hk hak
    exact absurd (hf.disjoint (hold k zs hk).2 hg hak (List.mem_cons_of_mem _ ha)) (hold k zs hk).1
  refine (hf.mono fun k zs hk => (hold k zs hk).2).update (by rwa [Function.update_of_ne hgh.symm])
    ((hf.ring hg).rehead hmem) ?_ ?_ ?_ (Function.update_self ..)
  · exact fun a ha => .inr ⟨hfree a ha, fun heq => hmem (heq ▸ ha)⟩
  · intro k zs hk hkh
    rw [Function.update_of_ne hkh] at hk
    refine ⟨hk, fun hkx => (hold k zs hk).1 ?_⟩
    exact hf.disjoint (hold k zs hk).2 hg List.mem_cons_self (List.mem_cons_of_mem _ hkx)
  · intro a hah hax
    have hne : a ≠ h := fun heq => hah (heq ▸ List.mem_cons_self)
    have hfirst : a ≠ x := fun heq => hax (heq ▸ List.mem_cons_self)
    have hlast : a ≠ xs.getLastD x := fun heq => hax (heq ▸ Ring.getLastD_mem x xs)
    constructor
    · rw [join_next_of_ne hlast, join_next_of_ne hne]
    · rw [join_prev_of_ne hne, join_prev_of_ne hfirst]

end Family

end Links

end lib
