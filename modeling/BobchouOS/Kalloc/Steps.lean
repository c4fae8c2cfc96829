import BobchouOS.Kalloc.Model
import BobchouOS.Lib.Micro

open lib

namespace bobchouos

namespace steps

/-! The functions of `kalloc.c` once more, access by access: the list heads, the
counters, the links of the blocks and the fields of `struct page` are read and
written one at a time. -/

def getHead (order : Nat) : Micro Kmem Nat := .read fun s => (s.free_areas order).free_list

def setHead (order b : Nat) : Micro Kmem Unit := .write fun s =>
  { s with free_areas := Function.update s.free_areas order { s.free_areas order with free_list := b } }

def getCount (order : Nat) : Micro Kmem Nat := .read fun s => (s.free_areas order).nr_free

def setCount (order n : Nat) : Micro Kmem Unit := .write fun s =>
  { s with free_areas := Function.update s.free_areas order { s.free_areas order with nr_free := n } }

def getLink (pb : Kmem.LinkPtr) : Micro Kmem Nat := .read fun s => s.readLink pb

def setLink (pb : Kmem.LinkPtr) (b : Nat) : Micro Kmem Unit := .write fun s => s.writeLink b pb

def getRefcount (pa : Nat) : Micro Kmem Nat := .read fun s => (s.pa_to_page pa).refcount

def setRefcount (pa n : Nat) : Micro Kmem Unit := .write fun s =>
  s.setPage pa { s.pa_to_page pa with refcount := n }

def getOrder (pa : Nat) : Micro Kmem Nat := .read fun s => (s.pa_to_page pa).order

def setOrder (pa n : Nat) : Micro Kmem Unit := .write fun s => s.setPage pa { s.pa_to_page pa with order := n }

def memset (pa : Nat) (v : BitVec 8) (n : Nat) : Micro Kmem Unit := .write fun s =>
  { s with mem := s.mem.memset pa v n }

/-- The upward search of `buddy_alloc`, with the block that it finds. -/
def searchUp : Nat → Nat → Micro Kmem (Option (Nat × Nat))
  | 0, found_order => do
    let b ← getHead found_order
    if b ≠ 0 then pure (some (found_order, b)) else pure none
  | left + 1, found_order => do
    let b ← getHead found_order
    if b ≠ 0 then pure (some (found_order, b)) else searchUp left (found_order + 1)

def popFree (order b : Nat) : Micro Kmem Unit := do
  let next ← getLink (.next b)
  setHead order next
  let n ← getCount order
  setCount order (n - 1)

def pushFree (order b : Nat) : Micro Kmem Unit := do
  let head ← getHead order
  setLink (.next b) head
  setHead order b
  let n ← getCount order
  setCount order (n + 1)

def splitDown (b : Nat) : Nat → Nat → Micro Kmem Unit
  | 0, _ => pure ()
  | count + 1, i => do
    let buddy := b ^^^ (PG_SIZE <<< i)
    setOrder buddy i
    pushFree i buddy
    splitDown b count (i + 1)

def buddy_alloc (order : Nat) : Micro Kmem Nat :=
  if order > MAX_ORDER then Micro.panic "buddy_alloc: order=%d"
  else do
    let found ← searchUp (MAX_ORDER - order) order
    match found with
    | none => pure 0
    | some (found_order, b) => do
      popFree found_order b
      splitDown b (found_order - order) order
      memset b 0 (PG_SIZE <<< order)
      setOrder b order
      setRefcount b 1
      pure b

/-- The search of `buddy_free` on a free list: the link and what it points at. -/
def findLink (buddy : Nat) : Nat → Kmem.LinkPtr → Micro Kmem (Kmem.LinkPtr × Nat)
  | 0, _ => .halt .diverge
  | fuel + 1, pb => do
    let b ← getLink pb
    if b = 0 ∨ b = buddy then pure (pb, b) else findLink buddy fuel (.next b)

def unlink (order : Nat) (pb : Kmem.LinkPtr) (b : Nat) : Micro Kmem Unit := do
  let next ← getLink (.next b)
  setLink pb next
  let n ← getCount order
  setCount order (n - 1)

def coalesce (free_start : Nat) : Nat → Nat → Nat → Micro Kmem (Nat × Nat)
  | 0, addr, order => pure (addr, order)
  | left + 1, addr, order => do
    let buddy := addr ^^^ (PG_SIZE <<< order)
    if buddy < free_start ∨ buddy ≥ PHYS_STOP then pure (addr, order)
    else
      let refcount ← getRefcount buddy
      if refcount ≠ 0 then pure (addr, order)
      else
        let (pb, b) ← findLink buddy (NR_PAGES + 1) (.head order)
        if b = 0 then pure (addr, order)
        else
          unlink order pb b
          coalesce free_start left (addr.ldiff (PG_SIZE <<< order)) (order + 1)

def buddy_free (pa order : Nat) : Micro Kmem Unit := do
  let free_start ← Micro.read Kmem.free_start
  if order > MAX_ORDER ∨ pa % (PG_SIZE <<< order) ≠ 0 ∨ pa < free_start ∨ pa ≥ PHYS_STOP then
    Micro.panic "buddy_free: invalid pa=%p order=%d"
  else
    let refcount ← getRefcount pa
    let order' ← getOrder pa
    if refcount ≠ 1 ∨ order' ≠ order then
      Micro.panic "buddy_free: pa=%p order=%d refcount=%d pg->order=%d"
    else
      memset pa 1 (PG_SIZE <<< order)
      setRefcount pa 0
      let (addr, merged) ← coalesce free_start (MAX_ORDER - order) pa order
      pushFree merged addr

def kalloc : Micro Kmem Nat := buddy_alloc 0

def kfree (pa : Nat) : Micro Kmem Unit := buddy_free pa 0

def kalloc_pages (order : Nat) : Micro Kmem Nat := buddy_alloc order

def kfree_pages (pa order : Nat) : Micro Kmem Unit := buddy_free pa order

/-! Without anybody else, they are the functions of the model. -/

theorem run_popFree {order b : Nat} {s : Kmem} (hb : (s.free_areas order).free_list = b) :
    (popFree order b).run s = .ok ((), s.popFree order) := by
  simp [popFree, getLink, setHead, getCount, setCount, Kmem.popFree, Kmem.readLink, hb]

theorem run_pushFree (order b : Nat) (s : Kmem) : (pushFree order b).run s = .ok ((), s.pushFree order b) := by
  simp [pushFree, getHead, setLink, setHead, getCount, setCount, Kmem.pushFree, Kmem.writeLink]

theorem run_splitDown (b count i : Nat) (s : Kmem) :
    (splitDown b count i).run s = .ok ((), bobchouos.splitDown b count i s) := by
  induction count generalizing i s with
  | zero => rfl
  | succ count ih =>
    simp only [splitDown, setOrder, Micro.run_write_bind]
    rw [Micro.run_bind_of_ok _ (run_pushFree i _ _), ih]
    rfl

theorem run_searchUp (left found_order : Nat) (s : Kmem) : (searchUp left found_order).run s =
    .ok ((bobchouos.searchUp s left found_order).map fun k => (k, (s.free_areas k).free_list), s) := by
  induction left generalizing found_order with
  | zero =>
    simp only [searchUp, getHead, Micro.run_read_bind, Micro.run_ite, bobchouos.searchUp]
    split <;> rfl
  | succ left ih =>
    simp only [searchUp, getHead, Micro.run_read_bind, Micro.run_ite, bobchouos.searchUp]
    split
    · rfl
    · exact ih (found_order + 1)

theorem run_buddy_alloc (order : Nat) : (buddy_alloc order).run = bobchouos.buddy_alloc order := by
  funext s
  unfold buddy_alloc bobchouos.buddy_alloc
  by_cases horder : order > MAX_ORDER
  · rw [if_pos horder, if_pos horder]
    rfl
  rw [if_neg horder, if_neg horder, Micro.run_bind_of_ok _ (run_searchUp _ _ s), get_bind_eq]
  cases bobchouos.searchUp s (MAX_ORDER - order) order with
  | none => rfl
  | some found_order =>
    simp only [Option.map_some]
    rw [Micro.run_bind_of_ok _ (run_popFree rfl), Micro.run_bind_of_ok _ (run_splitDown _ _ _ _)]
    simp only [memset, setOrder, setRefcount, Micro.run_write_bind, Micro.run_pure, modify_bind_eq, claim,
      Kmem.setPage, Kmem.pa_to_page, Function.update_self, Function.update_idem]
    rfl

theorem run_findLink (buddy fuel : Nat) (pb : Kmem.LinkPtr) (s : Kmem) : (findLink buddy fuel pb).run s =
    match bobchouos.findLink s buddy fuel pb with
    | none => .error .diverge
    | some pb => .ok ((pb, s.readLink pb), s) := by
  induction fuel generalizing pb with
  | zero => rfl
  | succ fuel ih =>
    simp only [findLink, getLink, Micro.run_read_bind, Micro.run_ite, bobchouos.findLink]
    split
    · rfl
    · exact ih _

theorem run_unlink {order b : Nat} {pb : Kmem.LinkPtr} {s : Kmem} (hb : s.readLink pb = b) :
    (unlink order pb b).run s = .ok ((), bobchouos.unlink order pb s) := by
  subst hb
  rfl

theorem free_start_unlink (order : Nat) (pb : Kmem.LinkPtr) (s : Kmem) :
    (bobchouos.unlink order pb s).free_start = s.free_start := by
  cases pb <;> rfl

theorem run_coalesce (left addr order : Nat) (s : Kmem) :
    (coalesce s.free_start left addr order).run s = bobchouos.coalesce left addr order s := by
  induction left generalizing addr order s with
  | zero => rfl
  | succ left ih =>
    simp only [coalesce, bobchouos.coalesce, get_bind_eq]
    rw [Micro.run_ite]
    by_cases hrange : addr ^^^ PG_SIZE <<< order < s.free_start ∨ addr ^^^ PG_SIZE <<< order ≥ PHYS_STOP
    · rw [if_pos hrange, if_pos (by tauto)]
      rfl
    rw [if_neg hrange, getRefcount, Micro.run_read_bind, Micro.run_ite]
    by_cases href : (s.pa_to_page (addr ^^^ PG_SIZE <<< order)).refcount ≠ 0
    · rw [if_pos href, if_pos (by tauto)]
      rfl
    rw [if_neg href, if_neg (by tauto)]
    have hfind := run_findLink (addr ^^^ PG_SIZE <<< order) (NR_PAGES + 1) (.head order) s
    cases hlink : bobchouos.findLink s (addr ^^^ PG_SIZE <<< order) (NR_PAGES + 1) (.head order) with
    | none =>
      rw [hlink] at hfind
      exact Micro.run_bind_of_error _ hfind
    | some pb =>
      rw [hlink] at hfind
      rw [Micro.run_bind_of_ok _ hfind, Micro.run_ite]
      by_cases hnull : s.readLink pb = 0
      · simp only [if_pos hnull]
        rfl
      · simp only [if_neg hnull, modify_bind_eq]
        rw [Micro.run_bind_of_ok _ (run_unlink rfl), ← ih, free_start_unlink]

theorem run_buddy_free (pa order : Nat) : (buddy_free pa order).run = bobchouos.buddy_free pa order := by
  funext s
  simp only [buddy_free, bobchouos.buddy_free, Micro.run_read_bind, get_bind_eq, Micro.run_ite, getRefcount, getOrder]
  split
  · rfl
  split
  · rfl
  simp only [memset, setRefcount, Micro.run_write_bind, modify_bind_eq]
  have hrun := run_coalesce (MAX_ORDER - order) pa order (release pa order s)
  cases hmerge : bobchouos.coalesce (MAX_ORDER - order) pa order (release pa order s) with
  | error halt =>
    rw [hmerge] at hrun
    exact (Micro.run_bind_of_error _ hrun).trans (bind_eq_error hmerge).symm
  | ok r =>
    rw [hmerge] at hrun
    have hpush : ((bobchouos.coalesce (MAX_ORDER - order) pa order >>= fun r =>
        modify fun s => s.pushFree r.2 r.1) (release pa order s)) = .ok ((), r.2.pushFree r.1.2 r.1.1) :=
      wp.bind_eq (wp_of_ok hmerge rfl)
    exact ((Micro.run_bind_of_ok _ hrun).trans (run_pushFree _ _ _)).trans hpush.symm

end steps

end bobchouos
