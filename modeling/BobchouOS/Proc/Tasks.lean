import BobchouOS.Proc.Model

open lib

namespace bobchouos

@[simp] theorem Node.alive_link {live : List Nat} {l : Link} {p : Nat} :
    (Node.link l p).alive live = true ↔ p ∈ live := by
  simp [Node.alive, Node.owner]

@[simp] theorem Node.alive_children {live : List Nat} {p : Nat} :
    (Node.head (.children p)).alive live = true ↔ p ∈ live := by
  simp [Node.alive, Node.owner, Head.owner]

@[simp] theorem Node.alive_child_wq {live : List Nat} {p : Nat} :
    (Node.head (.wq (.child_wq p))).alive live = true ↔ p ∈ live := by
  simp [Node.alive, Node.owner, Head.owner]

theorem Node.alive_of_subset {live live' : List Nat} {n : Node} (hsub : ∀ q ∈ live, q ∈ live')
    (hn : n.alive live = true) : n.alive live' = true := by
  cases howner : n.owner with
  | none => simp [Node.alive, howner]
  | some r =>
    simp only [Node.alive, howner, Option.all_some, decide_eq_true_eq] at hn ⊢
    exact hsub r hn

/-- Where a process is: on the CPU, on a list, or dead. -/
inductive Place where
  | cpu
  | queue (h : Head)
  | zombie
  deriving DecidableEq

/-- The state of the scheduler, with its lists as sequences of processes and the
place of each process. -/
structure Tasks extends ProcTable where
  list : Head → List Nat
  place : Nat → Place

namespace Tasks

variable {t : Tasks} {h : Head} {p : Nat} {xs ys : List Nat}

def put (h : Head) (xs : List Nat) (t : Tasks) : Tasks := { t with list := Function.update t.list h xs }

def push (h : Head) (p : Nat) (t : Tasks) : Tasks := t.put h (t.list h ++ [p])

def drop (h : Head) (p : Nat) (t : Tasks) : Tasks := t.put h ((t.list h).erase p)

def setProc (p : Nat) (f : Proc → Proc) (t : Tasks) : Tasks :=
  { t with toProcTable := t.toProcTable.setProc p f }

/-- The lists in memory. The `tsleep_link` of a process that is not on
`tsleep_list` is an empty list of its own. -/
def rings (t : Tasks) : Node → Option (List Node)
  | .head h => if (Node.head h).alive t.live then some ((t.list h).map (.link h.link)) else none
  | .link .tsleep_link p => if p ∈ t.live ∧ p ∉ t.list .tsleep_list then some [] else none
  | .link _ _ => none

theorem rings_head (hh : (Node.head h).alive t.live = true) :
    t.rings (.head h) = some ((t.list h).map (.link h.link)) := if_pos hh

theorem rings_tsleep_link (hp : p ∈ t.live) (hne : p ∉ t.list .tsleep_list) :
    t.rings (.link .tsleep_link p) = some [] := if_pos ⟨hp, hne⟩

theorem rings_head_iff {zs : List Node} : t.rings (.head h) = some zs ↔
    (Node.head h).alive t.live = true ∧ zs = (t.list h).map (.link h.link) := by
  by_cases hh : (Node.head h).alive t.live = true
  · simp [rings, hh, eq_comm]
  · simp [rings, hh]

theorem rings_link_iff {l : Link} {zs : List Node} : t.rings (.link l p) = some zs ↔
    l = .tsleep_link ∧ p ∈ t.live ∧ p ∉ t.list .tsleep_list ∧ zs = [] := by
  cases l <;> simp [rings, and_assoc, eq_comm]

/-- A process on no list by a node can be put on one by it. -/
theorem rings_free {l : Link} (hfree : ∀ g, g.link = l → (Node.head g).alive t.live = true → p ∉ t.list g) :
    Links.Free t.rings (.link l p) := by
  intro g zs hg hmem
  cases g with
  | head g =>
    obtain ⟨halive, rfl⟩ := rings_head_iff.mp hg
    simp only [List.mem_cons, reduceCtorEq, List.mem_map, Node.link.injEq, false_or] at hmem
    obtain ⟨q, hq, hl, rfl⟩ := hmem
    exact absurd hq (hfree g hl halive)
  | link k q =>
    obtain ⟨-, -, -, rfl⟩ := rings_link_iff.mp hg
    exact ⟨(List.mem_singleton.mp hmem).symm, rfl⟩

theorem rings_put_head (hh : (Node.head h).alive t.live = true) (g : Head) :
    (t.put h xs).rings (.head g) =
      Function.update t.rings (.head h) (some (xs.map (.link h.link))) (.head g) := by
  by_cases hgh : g = h
  · subst hgh
    rw [Function.update_self, rings_head (t := t.put g xs) hh]
    simp [put]
  · rw [Function.update_of_ne (by simpa using hgh)]
    simp [rings, put, Function.update_of_ne hgh]

theorem rings_put_link {l : Link} {q : Nat}
    (hiff : h = .tsleep_list → l = .tsleep_link → (q ∈ xs ↔ q ∈ t.list h)) :
    (t.put h xs).rings (.link l q) = t.rings (.link l q) := by
  cases l <;> simp only [rings]
  by_cases hh : h = .tsleep_list
  · subst hh
    simp [put, hiff rfl rfl]
  · simp [put, Function.update_of_ne (Ne.symm hh)]

theorem rings_insert (hh : (Node.head h).alive t.live = true) (hlist : t.list h = xs ++ ys) :
    Function.update (Function.update t.rings (.link h.link p) none) (.head h)
      (some ((xs ++ p :: ys).map (.link h.link))) = (t.put h (xs ++ p :: ys)).rings := by
  funext n
  cases n with
  | head g =>
    rw [rings_put_head hh]
    by_cases hgh : g = h
    · subst hgh
      rw [Function.update_self, Function.update_self]
    · have hne : Node.head g ≠ .head h := by simpa using hgh
      rw [Function.update_of_ne hne, Function.update_of_ne hne, Function.update_of_ne (by simp)]
  | link l q =>
    rw [Function.update_of_ne (by simp)]
    by_cases heq : Node.link l q = .link h.link p
    · rw [heq, Function.update_self]
      obtain ⟨rfl, rfl⟩ := Node.link.inj heq
      cases h <;> simp [Head.link, rings, put]
    · rw [Function.update_of_ne heq, rings_put_link]
      rintro rfl rfl
      have hqp : q ≠ p := by
        rintro rfl
        exact heq rfl
      rw [hlist]
      simp [hqp]

theorem rings_remove (hh : (Node.head h).alive t.live = true) (hne : h ≠ .tsleep_list) :
    Function.update t.rings (.head h) (some (xs.map (.link h.link))) = (t.put h xs).rings := by
  funext n
  cases n with
  | head g => rw [rings_put_head hh]
  | link l q =>
    rw [Function.update_of_ne (by simp), rings_put_link]
    exact fun heq => absurd heq hne

theorem rings_remove_init (hp : p ∈ t.live) (hlist : t.list .tsleep_list = xs ++ p :: ys) (hpx : p ∉ xs ++ ys) :
    Function.update (Function.update t.rings (.head .tsleep_list)
      (some ((xs ++ ys).map (.link Head.tsleep_list.link)))) (.link .tsleep_link p) (some []) =
      (t.put .tsleep_list (xs ++ ys)).rings := by
  funext n
  cases n with
  | head g => rw [Function.update_of_ne (by simp), rings_put_head rfl]
  | link l q =>
    by_cases heq : Node.link l q = .link .tsleep_link p
    · obtain ⟨rfl, rfl⟩ := Node.link.inj heq
      rw [Function.update_self, rings_tsleep_link (t := t.put .tsleep_list (xs ++ ys)) hp]
      simpa [put] using hpx
    · rw [Function.update_of_ne heq, Function.update_of_ne (by simp), rings_put_link]
      rintro - rfl
      have hqp : q ≠ p := by
        rintro rfl
        exact heq rfl
      rw [hlist]
      simp [hqp]

end Tasks

/-- The linked nodes of `s` are the lists of `t`. -/
structure Rep (s : Procs) (t : Tasks) : Prop where
  table : s.toProcTable = t.toProcTable
  family : s.links.Family t.rings

namespace Rep

variable {s : Procs} {t : Tasks} {h : Head} {p : Nat} {xs ys : List Nat} {α : Type}

theorem live (hrep : Rep s t) : s.live = t.live := congrArg ProcTable.live hrep.table

theorem proc (hrep : Rep s t) : s.proc = t.proc := congrArg ProcTable.proc hrep.table

theorem current (hrep : Rep s t) : s.current = t.current := congrArg ProcTable.current hrep.table

theorem init_proc (hrep : Rep s t) : s.init_proc = t.init_proc := congrArg ProcTable.init_proc hrep.table

theorem next_pid (hrep : Rep s t) : s.next_pid = t.next_pid := congrArg ProcTable.next_pid hrep.table

/-- The places are not in memory. -/
theorem of_eq {t' : Tasks} (hrep : Rep s t) (htable : t'.toProcTable = t.toProcTable) (hlist : t'.list = t.list) :
    Rep s t' := by
  refine ⟨hrep.table.trans htable.symm, ?_⟩
  have hrings : t'.rings = t.rings := by
    funext n
    cases n with
    | head h => simp [Tasks.rings, htable, hlist]
    | link l q => cases l <;> simp [Tasks.rings, htable, hlist]
  rw [hrings]
  exact hrep.family

theorem ring (hrep : Rep s t) (hh : (Node.head h).alive t.live = true) :
    s.links.Ring (.head h) ((t.list h).map (.link h.link)) := hrep.family.ring (Tasks.rings_head hh)

theorem nodup (hrep : Rep s t) (hh : (Node.head h).alive t.live = true) : (t.list h).Nodup :=
  List.Nodup.of_map _ (List.nodup_cons.mp (hrep.ring hh).nodup).2

/-- Removing a process from a list it is on. -/
theorem split (hrep : Rep s t) (hh : (Node.head h).alive t.live = true) (hp : p ∈ t.list h) :
    ∃ xs ys, t.list h = xs ++ p :: ys ∧ (t.list h).erase p = xs ++ ys ∧ p ∉ xs ++ ys := by
  obtain ⟨xs, ys, heq⟩ := List.append_of_mem hp
  have hnodup := hrep.nodup hh
  rw [heq, List.nodup_middle, List.nodup_cons] at hnodup
  have hpx : p ∉ xs := fun hmem => hnodup.1 (List.mem_append_left _ hmem)
  refine ⟨xs, ys, heq, ?_, hnodup.1⟩
  rw [heq, List.erase_append_right _ hpx, List.erase_cons_head]

/-- A change of the table that keeps the allocated processes. -/
theorem setTable (hrep : Rep s t) (table : ProcTable) (hlive : table.live = t.live) :
    Rep { s with toProcTable := table } { t with toProcTable := table } := by
  refine ⟨rfl, ?_⟩
  have hrings : ({ t with toProcTable := table } : Tasks).rings = t.rings := by
    funext n
    cases n with
    | head h => simp [Tasks.rings, hlive]
    | link l q => cases l <;> simp [Tasks.rings, hlive]
  rw [hrings]
  exact hrep.family

end Rep

section rules

variable {s : Procs} {t : Tasks} {h : Head} {p : Nat} {xs ys : List Nat} {α : Type}

theorem onNodes_spec {ns : List Node} {x : Prog (Links Node) α} {Q : α → Procs → Prop} {live : List Nat}
    (hlive : s.live = live) (hns : ns.all (Node.alive live) = true) (hx : wp x (fun a l => Q a { s with links := l }) s.links) :
    wp (onNodes ns x) Q s := by
  simp only [onNodes, wp_bind, wp_get, hlive, hns, if_true, wp_onField]
  exact hx

theorem getProc_spec {Q : Proc → Procs → Prop} (hrep : Rep s t) (hp : p ∈ t.live) (hQ : Q (t.proc p) s) :
    wp (getProc p) Q s := by
  simp only [getProc, wp_bind, wp_get, hrep.live, hp, if_true, wp_pure, hrep.proc]
  exact hQ

theorem setProc_spec {f : Proc → Proc} {Q : Unit → Procs → Prop} (hrep : Rep s t) (hp : p ∈ t.live)
    (hQ : ∀ s', Rep s' (t.setProc p f) → Q () s') : wp (setProc p f) Q s := by
  simp only [setProc, wp_bind, wp_get, hrep.live, hp, if_true, wp_set]
  refine hQ _ ?_
  rw [hrep.table]
  exact hrep.setTable _ rfl

theorem this_proc_spec {Q : Nat → Procs → Prop} (hrep : Rep s t) (hcur : t.current = some p) (hQ : Q p s) :
    wp this_proc Q s := by
  simp only [this_proc, wp_bind, wp_get, hrep.current, hcur, wp_pure]
  exact hQ

theorem sched_spec {Q : Unit → Procs → Prop} (hrep : Rep s t)
    (hQ : ∀ s', Rep s' { t with current := none } → Q () s') : wp sched Q s := by
  simp only [sched, wp_modify]
  refine hQ _ ?_
  rw [hrep.table]
  exact hrep.setTable { t.toProcTable with current := none } rfl

/-- The insertions: the node of `p` comes between two neighbours on the list. -/
theorem insert_spec (xs ys : List Nat) {new head : Node} {x : Prog (Links Node) Unit} {Q : Unit → Procs → Prop} (hrep : Rep s t)
    (hh : (Node.head h).alive t.live = true) (hlist : t.list h = xs ++ ys)
    (hns : [new, head].all (Node.alive t.live) = true)
    (hfree : ∀ g, g.link = h.link → (Node.head g).alive t.live = true → p ∉ t.list g)
    (hx : ∀ {lists}, s.links.Family lists → lists (.head h) = some (xs.map (.link h.link) ++ ys.map (.link h.link)) →
      Links.Free lists (.link h.link p) → wp x (fun _ l => l.Family (Function.update
        (Function.update lists (.link h.link p) none) (.head h)
        (some (xs.map (.link h.link) ++ .link h.link p :: ys.map (.link h.link))))) s.links)
    (hQ : ∀ s', Rep s' (t.put h (xs ++ p :: ys)) → Q () s') : wp (onNodes [new, head] x) Q s := by
  refine onNodes_spec hrep.live hns ?_
  refine wp_mono (hx hrep.family ?_ (Tasks.rings_free hfree)) fun _ l hl => ?_
  · rw [Tasks.rings_head hh, hlist, List.map_append]
  · refine hQ _ ⟨hrep.table, ?_⟩
    rw [← Tasks.rings_insert hh hlist]
    simpa using hl

theorem addTail_spec {Q : Unit → Procs → Prop} (hrep : Rep s t) (hp : p ∈ t.live)
    (hh : (Node.head h).alive t.live = true)
    (hfree : ∀ g, g.link = h.link → (Node.head g).alive t.live = true → p ∉ t.list g)
    (hQ : ∀ s', Rep s' (t.push h p) → Q () s') : wp (addTail p h) Q s := by
  refine insert_spec _ [] hrep hh (List.append_nil _).symm ?_ hfree ?_ hQ
  · simp [hh, hp]
  · intro lists hf hlist hfree'
    exact list_add_tail_spec _ [] hf hlist hfree' (by simp)

theorem addFront_spec {Q : Unit → Procs → Prop} (hrep : Rep s t) (hp : p ∈ t.live)
    (hh : (Node.head h).alive t.live = true)
    (hfree : ∀ g, g.link = h.link → (Node.head g).alive t.live = true → p ∉ t.list g)
    (hQ : ∀ s', Rep s' (t.put h (p :: t.list h)) → Q () s') : wp (addFront p h) Q s := by
  refine insert_spec [] _ hrep hh rfl ?_ hfree ?_ hQ
  · simp [hh, hp]
  · intro lists hf hlist hfree'
    exact list_add_spec hf hlist hfree' (by simp)

theorem del_spec {Q : Unit → Procs → Prop} (hrep : Rep s t) (hp : p ∈ t.live)
    (hh : (Node.head h).alive t.live = true) (hne : h ≠ .tsleep_list) (hmem : p ∈ t.list h)
    (hQ : ∀ s', Rep s' (t.drop h p) → Q () s') : wp (del h.link p) Q s := by
  obtain ⟨xs, ys, hlist, herase, -⟩ := hrep.split hh hmem
  refine onNodes_spec hrep.live (by simp [hp]) ?_
  have hhead : t.rings (.head h) = some (xs.map (.link h.link) ++ .link h.link p :: ys.map (.link h.link)) := by
    rw [Tasks.rings_head hh, hlist, List.map_append, List.map_cons]
  refine wp_mono (list_del_spec hrep.family hhead) fun _ l hl => ?_
  refine hQ _ ⟨hrep.table, ?_⟩
  rw [Tasks.drop, herase, ← Tasks.rings_remove hh hne]
  simpa using hl

theorem tsleep_del_spec {Q : Unit → Procs → Prop} (hrep : Rep s t) (hp : p ∈ t.live)
    (hmem : p ∈ t.list .tsleep_list) (hQ : ∀ s', Rep s' (t.drop .tsleep_list p) → Q () s') :
    wp (onNodes [.link .tsleep_link p] (list_del_init (.link .tsleep_link p))) Q s := by
  obtain ⟨xs, ys, hlist, herase, hpx⟩ := hrep.split (h := .tsleep_list) rfl hmem
  refine onNodes_spec hrep.live (by simp [hp]) ?_
  have hhead : t.rings (.head .tsleep_list) =
      some (xs.map (.link .tsleep_link) ++ .link .tsleep_link p :: ys.map (.link .tsleep_link)) := by
    rw [Tasks.rings_head rfl, hlist, List.map_append, List.map_cons]
    rfl
  refine wp_mono (list_del_init_spec hrep.family hhead) fun _ l hl => ?_
  refine hQ _ ⟨hrep.table, ?_⟩
  rw [Tasks.drop, herase, ← Tasks.rings_remove_init hp hlist hpx]
  simpa [Head.link] using hl

theorem isEmpty_spec {Q : Bool → Procs → Prop} (hrep : Rep s t) (hh : (Node.head h).alive t.live = true)
    (hQ : Q (t.list h).isEmpty s) : wp (isEmpty (.head h)) Q s := by
  refine onNodes_spec hrep.live (by simp [hh]) ?_
  refine wp_mono (list_empty_spec hrep.family (Tasks.rings_head hh)) fun r l hl => ?_
  obtain ⟨rfl, rfl⟩ := hl
  simpa using hQ

/-- A `tsleep_link` points to itself unless it is on `tsleep_list`. -/
theorem Rep.tsleep_link_self (hrep : Rep s t) (hp : p ∈ t.live) :
    s.links.next (.link .tsleep_link p) = some (.link .tsleep_link p) ↔ p ∉ t.list .tsleep_list := by
  by_cases hmem : p ∈ t.list .tsleep_list
  · -- the node is on the list, so its successor is another node
    obtain ⟨xs, ys, hlist, -, hpx⟩ := hrep.split (h := .tsleep_list) rfl hmem
    have hring := hrep.ring (h := .tsleep_list) rfl
    rw [hlist, List.map_append, List.map_cons] at hring
    have hadj := Links.Ring.adj (xs.map (Node.link .tsleep_link) ++ [Node.link .tsleep_link p])
      (ys.map (Node.link .tsleep_link)) (by simpa [Head.link] using hring)
    obtain ⟨n, hnext, hne⟩ : ∃ n, s.links.next (.link .tsleep_link p) = some n ∧ n ≠ .link .tsleep_link p := by
      refine ⟨_, by simpa using hadj.1, ?_⟩
      cases ys with
      | nil => simp
      | cons y ys =>
        simp only [List.head?_cons, Option.map_some, Option.getD_some, ne_eq, Node.link.injEq, true_and]
        rintro rfl
        simp at hpx
    rw [hnext]
    simp [hne, hmem]
  · have hring := hrep.family.ring (Tasks.rings_tsleep_link hp hmem)
    have hadj := Links.Ring.adj [] [] hring
    exact iff_of_true hadj.1 hmem

/-- The test by which `proc_kill` finds out where its victim sleeps. -/
theorem tsleep_isEmpty_spec {Q : Bool → Procs → Prop} (hrep : Rep s t) (hp : p ∈ t.live)
    (hQ : Q (decide (p ∉ t.list .tsleep_list)) s) : wp (isEmpty (.link .tsleep_link p)) Q s := by
  refine onNodes_spec hrep.live (by simp [hp]) ?_
  have hself : (s.links.next (.link .tsleep_link p) == some (.link .tsleep_link p)) =
      decide (p ∉ t.list .tsleep_list) := by
    rw [Bool.eq_iff_iff, beq_iff_eq, hrep.tsleep_link_self hp, decide_eq_true_iff]
  simp only [list_empty, wp_bind, wp_get, wp_pure, hself]
  exact hQ

theorem list_entry_spec {Q : Nat → Procs → Prop} (hQ : Q p s) : wp (list_entry h (.link h.link p)) Q s := by
  simp only [list_entry, if_true, wp_pure]
  exact hQ

theorem list_first_entry_spec {Q : Nat → Procs → Prop} (hrep : Rep s t) (hh : (Node.head h).alive t.live = true)
    (hlist : t.list h = p :: xs) (hQ : Q p s) : wp (list_first_entry h) Q s := by
  have hring := hrep.ring hh
  rw [hlist] at hring
  simp only [list_first_entry, wp_bind, wp_get]
  rw [show s.links.next (.head h) = some (.link h.link p) from (Links.Ring.adj [] _ hring).1]
  exact list_entry_spec hQ

/-- A search through a list of processes. -/
theorem list_for_each_entry_spec {body : Nat → Prog Procs (Option α)} {Q : Option α → Procs → Prop}
    {P : Nat → Prop} (hrep : Rep s t) (hh : (Node.head h).alive t.live = true)
    (hlive : ∀ p ∈ t.list h, p ∈ t.live)
    (hbody : ∀ pre p post, t.list h = pre ++ p :: post → (∀ a ∈ pre, P a) → wp (body p) (fun r s' =>
      match r with
      | some b => Q (some b) s'
      | none => s' = s ∧ P p) s)
    (hend : (∀ p ∈ t.list h, P p) → Q none s) : wp (list_for_each_entry h body) Q s := by
  have hlength : (t.list h).length ≤ t.live.length := (List.subperm_of_subset (hrep.nodup hh) hlive).length_le
  simp only [list_for_each_entry, wp_bind, wp_get]
  refine list_for_each_spec (P := fun n => ∀ p, n = .link h.link p → P p) (hrep.ring hh) ?_ ?_ ?_
  · rw [List.length_map, hrep.live]
    exact Nat.lt_succ_of_le hlength
  · intro pre n post hsplit hskip
    obtain ⟨pre', rest, heq, rfl, hrest⟩ := List.map_eq_append_iff.mp hsplit
    obtain ⟨p, post', rfl, rfl, rfl⟩ := List.map_eq_cons_iff.mp hrest
    rw [wp_bind]
    refine list_entry_spec (wp_mono (hbody pre' p post' heq ?_) fun r s' hr => ?_)
    · exact fun a ha => hskip _ (List.mem_map_of_mem ha) a rfl
    · cases r with
      | some b => exact hr
      | none =>
        refine ⟨hr.1, ?_⟩
        rintro q hq
        obtain ⟨-, rfl⟩ := Node.link.inj hq
        exact hr.2
  · exact fun hskip => hend fun p hp => hskip _ (List.mem_map_of_mem hp) p rfl

/-- A loop that takes the first process off its list in each round. -/
theorem list_for_each_entry_safe_spec {body : Nat → Prog Procs (Option α)} {Q : Option α → Procs → Prop}
    {I : Tasks → Prop} (hI : I t) (hrep : Rep s t) (hh : ∀ t, I t → (Node.head h).alive t.live = true)
    (hlive : ∀ p ∈ t.list h, p ∈ t.live)
    (hbody : ∀ p xs s t, I t → Rep s t → t.list h = p :: xs → wp (body p) (fun r s' =>
      match r with
      | some b => Q (some b) s'
      | none => ∃ t', I t' ∧ Rep s' t' ∧ t'.list h = xs) s)
    (hend : ∀ s t, I t → Rep s t → t.list h = [] → Q none s) :
    wp (list_for_each_entry_safe h body) Q s := by
  have hlength : (t.list h).length ≤ t.live.length :=
    (List.subperm_of_subset (hrep.nodup (hh t hI)) hlive).length_le
  simp only [list_for_each_entry_safe, wp_bind, wp_get]
  refine list_for_each_safe_spec
    (I := fun ns s => ∃ t', I t' ∧ Rep s t' ∧ (t'.list h).map (.link h.link) = ns) ⟨t, hI, hrep, rfl⟩ ?_ ?_ ?_ ?_
  · rw [List.length_map, hrep.live]
    exact Nat.lt_succ_of_le hlength
  · rintro ns s' ⟨t', hI', hrep', rfl⟩
    exact hrep'.ring (hh t' hI')
  · rintro n ns s' ⟨t', hI', hrep', hns⟩
    obtain ⟨p, xs, hlist, rfl, rfl⟩ := List.map_eq_cons_iff.mp hns
    rw [wp_bind]
    refine list_entry_spec (wp_mono (hbody p xs s' t' hI' hrep' hlist) fun r s'' hr => ?_)
    cases r with
    | some b => exact hr
    | none =>
      obtain ⟨t'', hI'', hrep'', hxs⟩ := hr
      exact ⟨t'', hI'', hrep'', by rw [hxs]⟩
  · rintro s' ⟨t', hI', hrep', hnil⟩
    exact hend s' t' hI' hrep' (List.map_eq_nil_iff.mp hnil)

end rules

end bobchouos
