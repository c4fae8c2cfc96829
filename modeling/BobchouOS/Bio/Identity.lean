import BobchouOS.Bio.Model
import Mathlib

open lib

namespace bobchouos

def Buf.key (buf : Buf) : Nat × Nat := (buf.dev, buf.blockno)

/-- A buffer that caches its block: in use, or with valid contents. -/
def Buf.Active (buf : Buf) : Prop := 0 < buf.refcnt ∨ buf.valid = true

theorem hasKey_iff (c : Bcache) (dev blockno b : Nat) :
    c.hasKey dev blockno b = true ↔ (c.buf b).key = (dev, blockno) := by
  simp [Bcache.hasKey, Buf.key]

/-- The identity part of the invariant. Inactive buffers have never been used
and carry the key of block (0, 0), which `bget` cannot tell from an active one:
it is found first because it stands in front of them. -/
structure Identity (c : Bcache) : Prop where
  pool : c.lru.Perm (List.range NBUF)
  unique : ∀ a < NBUF, ∀ b < NBUF, (c.buf a).Active → (c.buf b).Active →
    (c.buf a).key = (c.buf b).key → a = b
  fresh : ∀ b < NBUF, ¬ (c.buf b).Active → (c.buf b).key = (0, 0)
  order : c.lru.Pairwise fun a b => ¬ (c.buf a).Active → (c.buf b).Active → (c.buf b).key ≠ (0, 0)

namespace Identity

variable {c c' : Bcache} {b dev blockno : Nat}

theorem mem_lru (h : Identity c) : b ∈ c.lru ↔ b < NBUF := by
  rw [h.pool.mem_iff, List.mem_range]

/-- Only the list, the keys and the activity of the buffers matter. -/
theorem congr (h : Identity c) (hlru : c'.lru = c.lru)
    (hkey : ∀ b, (c'.buf b).key = (c.buf b).key) (hactive : ∀ b, (c'.buf b).Active ↔ (c.buf b).Active) :
    Identity c' := by
  refine ⟨by rw [hlru]; exact h.pool, ?_, ?_, ?_⟩
  · intro a ha b hb haa hab heq
    rw [hkey, hkey] at heq
    exact h.unique a ha b hb ((hactive a).mp haa) ((hactive b).mp hab) heq
  · intro b hb hnot
    rw [hkey]
    exact h.fresh b hb fun hab => hnot ((hactive b).mpr hab)
  · rw [hlru]
    refine h.order.imp fun {a b} hab hna hb => ?_
    rw [hkey]
    exact hab (fun haa => hna ((hactive a).mpr haa)) ((hactive b).mp hb)

/-- The first loop of `bget` finds the active buffer of a key if there is one. -/
theorem find_active {a : Nat} (h : Identity c) (ha : a < NBUF) (hactive : (c.buf a).Active)
    (hkey : (c.buf a).key = (dev, blockno)) : c.lru.find? (c.hasKey dev blockno) = some a := by
  cases hfind : c.lru.find? (c.hasKey dev blockno) with
  | none =>
    rw [List.find?_eq_none] at hfind
    exact absurd ((hasKey_iff c dev blockno a).mpr hkey) (hfind a (h.mem_lru.mpr ha))
  | some b =>
    obtain ⟨hb, l₁, l₂, hsplit, hbefore⟩ := List.find?_eq_some_iff_append.mp hfind
    rw [hasKey_iff] at hb
    have hmem : a ∈ l₁ ++ b :: l₂ := hsplit ▸ h.mem_lru.mpr ha
    have hbpool : b < NBUF := h.mem_lru.mp (by rw [hsplit]; simp)
    rcases List.mem_append.mp hmem with hfront | hback
    · have hno := hbefore a hfront
      rw [(hasKey_iff c dev blockno a).mpr hkey] at hno
      cases hno
    rcases List.mem_cons.mp hback with rfl | hlater
    · rfl
    -- an inactive `b` in front of `a` would carry (0, 0), against the list order
    have horder := h.order
    rw [hsplit, List.pairwise_append, List.pairwise_cons] at horder
    have hba := horder.2.1.1 a hlater
    have hbactive : (c.buf b).Active := by
      by_contra hnot
      apply hba hnot hactive
      rw [hkey, ← hb]
      exact h.fresh b hbpool hnot
    rw [h.unique b hbpool a ha hbactive hactive (hb.trans hkey.symm)]

theorem buf_setBuf_of_ne {a : Nat} (hne : a ≠ b) (buf : Buf) : (c.setBuf b buf).buf a = c.buf a :=
  Function.update_of_ne hne _ _

@[simp] theorem buf_setBuf_self (buf : Buf) : (c.setBuf b buf).buf b = buf :=
  Function.update_self _ _ _

/-- A hit makes the buffer active. If it was not, it is the first of the unused
buffers with key (0, 0), and no active one has that key. -/
theorem hit (h : Identity c) (hfind : c.lru.find? (c.hasKey dev blockno) = some b) {buf : Buf}
    (hkey : buf.key = (c.buf b).key) (hactive : buf.Active) : Identity (c.setBuf b buf) := by
  obtain ⟨hb, l₁, l₂, hsplit, hbefore⟩ := List.find?_eq_some_iff_append.mp hfind
  rw [hasKey_iff] at hb
  have hkey' : ∀ a, ((c.setBuf b buf).buf a).key = (c.buf a).key := by
    intro a
    by_cases hab : a = b
    · rw [hab, buf_setBuf_self, hkey]
    · rw [buf_setBuf_of_ne hab]
  have hmono : ∀ a, (c.buf a).Active → ((c.setBuf b buf).buf a).Active := by
    intro a ha
    by_cases hab : a = b
    · rw [hab, buf_setBuf_self]
      exact hactive
    · rwa [buf_setBuf_of_ne hab]
  have hsame : ∀ a, a ≠ b → ((c.setBuf b buf).buf a).Active → (c.buf a).Active := by
    intro a hab ha
    rwa [buf_setBuf_of_ne hab] at ha
  -- an active buffer with the key of `b` would have been found instead
  have honly : ∀ a < NBUF, (c.buf a).Active → (c.buf a).key = (c.buf b).key → a = b := by
    intro a ha haa heq
    have hfound := h.find_active ha haa (heq.trans hb)
    rw [hfind] at hfound
    cases hfound
    rfl
  refine ⟨h.pool, ?_, ?_, ?_⟩
  · intro a ha d hd haa hda heq
    rw [hkey', hkey'] at heq
    by_cases hab : a = b
    · by_cases hdb : d = b
      · rw [hab, hdb]
      · rw [hab] at heq ⊢
        exact (honly d hd (hsame d hdb hda) heq.symm).symm
    · by_cases hdb : d = b
      · rw [hdb] at heq ⊢
        exact honly a ha (hsame a hab haa) heq
      · exact h.unique a ha d hd (hsame a hab haa) (hsame d hdb hda) heq
  · intro a ha hnot
    rw [hkey']
    exact h.fresh a ha fun haa => hnot (hmono a haa)
  · have horder := h.order
    have hnodup : (l₁ ++ b :: l₂).Nodup := by
      rw [← hsplit]
      exact h.pool.nodup_iff.mpr List.nodup_range
    have hstep : ∀ x ∈ c.lru, ∀ y, (¬ (c.buf x).Active → (c.buf y).Active → (c.buf y).key ≠ (0, 0)) →
        (y = b → x ∈ l₁) → ¬ ((c.setBuf b buf).buf x).Active → ((c.setBuf b buf).buf y).Active →
        ((c.setBuf b buf).buf y).key ≠ (0, 0) := by
      intro x hx y hxy hpos hnot hy
      rw [hkey']
      have hxnot : ¬ (c.buf x).Active := fun hxa => hnot (hmono x hxa)
      by_cases hyb : y = b
      · intro hzero
        have hxkey := h.fresh x (h.mem_lru.mp hx) hxnot
        have hno := hbefore x (hpos hyb)
        rw [hyb, hb] at hzero
        rw [(hasKey_iff c dev blockno x).mpr (hxkey.trans hzero.symm)] at hno
        cases hno
      · exact hxy hxnot (hsame y hyb hy)
    have hmem : ∀ x, x ∈ l₁ ++ b :: l₂ → x ∈ c.lru := fun x hx => hsplit ▸ hx
    rw [List.nodup_append, List.nodup_cons] at hnodup
    rw [show (c.setBuf b buf).lru = l₁ ++ b :: l₂ from hsplit]
    rw [hsplit, List.pairwise_append, List.pairwise_cons] at horder
    rw [List.pairwise_append, List.pairwise_cons]
    obtain ⟨hfront, ⟨-, hback⟩, hcross⟩ := horder
    refine ⟨?_, ⟨?_, ?_⟩, ?_⟩
    · exact hfront.imp_of_mem fun {x y} hx _ hxy => hstep x (hmem x (by simp [hx])) y hxy fun _ => hx
    · intro y _ hnot
      exact absurd (by rw [buf_setBuf_self]; exact hactive) hnot
    · refine hback.imp_of_mem fun {x y} hx hy hxy => hstep x (hmem x (by simp [hx])) y hxy fun hyb => ?_
      exact absurd (hyb ▸ hy) hnodup.2.1.1
    · intro x hx y hy
      exact hstep x (hmem x (by simp [hx])) y (hcross x hx y hy) fun _ => hx

/-- A miss re-keys an unused buffer. No buffer had the new key, so in case it is
(0, 0) there is no inactive buffer left. -/
theorem miss (h : Identity c) (hfind : c.lru.find? (c.hasKey dev blockno) = none) {buf : Buf}
    (hkey : buf.key = (dev, blockno)) (hactive : buf.Active) : Identity (c.setBuf b buf) := by
  rw [List.find?_eq_none] at hfind
  have hother : ∀ a < NBUF, (c.buf a).key ≠ (dev, blockno) := by
    intro a ha heq
    exact hfind a (h.mem_lru.mpr ha) ((hasKey_iff c dev blockno a).mpr heq)
  refine ⟨h.pool, ?_, ?_, ?_⟩
  · intro a ha d hd haa hda heq
    by_cases hab : a = b
    · by_cases hdb : d = b
      · rw [hab, hdb]
      · rw [hab, buf_setBuf_self, buf_setBuf_of_ne hdb, hkey] at heq
        exact absurd heq.symm (hother d hd)
    · by_cases hdb : d = b
      · rw [hdb, buf_setBuf_self, buf_setBuf_of_ne hab, hkey] at heq
        exact absurd heq (hother a ha)
      · rw [buf_setBuf_of_ne hab] at haa heq
        rw [buf_setBuf_of_ne hdb] at hda heq
        exact h.unique a ha d hd haa hda heq
  · intro a ha hnot
    by_cases hab : a = b
    · rw [hab, buf_setBuf_self] at hnot
      exact absurd hactive hnot
    · rw [buf_setBuf_of_ne hab] at hnot ⊢
      exact h.fresh a ha hnot
  · refine h.order.imp_of_mem fun {x y} hx _ hxy hnot hy => ?_
    by_cases hxb : x = b
    · rw [hxb, buf_setBuf_self] at hnot
      exact absurd hactive hnot
    rw [buf_setBuf_of_ne hxb] at hnot
    by_cases hyb : y = b
    · rw [hyb, buf_setBuf_self, hkey]
      intro hzero
      exact hother x (h.mem_lru.mp hx) ((h.fresh x (h.mem_lru.mp hx) hnot).trans hzero.symm)
    · rw [buf_setBuf_of_ne hyb] at hy ⊢
      exact hxy hnot hy

/-- Moving an active buffer to the front of the list. -/
theorem move (h : Identity c) (hb : b < NBUF) (hactive : (c.buf b).Active) :
    Identity { c with lru := b :: c.lru.erase b } := by
  have hmem := h.mem_lru.mpr hb
  refine ⟨(List.perm_cons_erase hmem).symm.trans h.pool, h.unique, h.fresh, ?_⟩
  refine List.Pairwise.cons ?_ (h.order.sublist List.erase_sublist)
  intro y _ hnot
  exact absurd hactive hnot

end Identity

end bobchouos
