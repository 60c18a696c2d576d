import Brlib.Plist.Requeue
import Brlib.Queue.History

/-!
# Runs of a plist

A run starts with `plist_head_init` and executes the requests of a history.  The
functions of `plist.c` refine the queue of `Brlib.Queue.History`: after every
valid history the plist holds `contents`, and every initialised node that is not
on it is idle (`Reached`).  What the queue is known to be, a sequence in the order
of the priorities and first in first out for equal ones, then holds of the plist
(`plist_consistent`).
-/

namespace Brlib
namespace Plist

open Heap Heap.Mem ListHead Queue

variable {η ν : Type} [DecidableEq η] [DecidableEq ν]

/-- A request, as a call on the plist `h`. -/
def exec (fuel : Nat) (h : η) : Request ν Int → PlistMem η ν → Option (PlistMem η ν)
  | .init n prio => plistNodeInit (.addr (.node n)) prio
  | .add n => plistAdd fuel (.addr (.node n)) (.addr (.head h))
  | .del n => plistDel fuel (.addr (.node n)) (.addr (.head h))
  | .requeue n => plistRequeue fuel (.addr (.node n)) (.addr (.head h))

/-- A run: `plist_head_init` and then the requests, the newest first in the
list. -/
def run (fuel : Nat) (h : η) : List (Request ν Int) → PlistMem η ν → Option (PlistMem η ν)
  | [], s => plistHeadInit (.addr (.head h)) s
  | op :: hist, s => (run fuel h hist s).bind (exec fuel h op)

/-- The state `s` is one that the requests `hist` lead to from the state `s₀`. -/
structure Reached (s₀ s : PlistMem η ν) (h : η) (hist : List (Request ν Int)) : Prop where
  inv : PlistInv s h (contents s₀.prio hist)
  idle : ∀ n, Initialised hist n → ¬ OnQueue hist n → Idle s n
  prio : s.prio = keyOf s₀.prio hist
  warnings : s.warnings = s₀.warnings
  live : s.mem.live = s₀.mem.live

variable {s₀ s s' : PlistMem η ν} {h : η} {x n : ν} {L K : List ν} {xs : List (Link η ν)}
variable {hist : List (Request ν Int)} {op : Request ν Int} {fuel : Nat}

section Step

omit [DecidableEq η] [DecidableEq ν] in
theorem PlistInv.frame (hinv : PlistInv s h L) (hsame : SameOutside s.mem s'.mem xs)
    (hout : ∀ z ∈ links h L, z ∉ xs) (hprio : ∀ x ∈ L, s'.prio x = s.prio x) :
    PlistInv s' h L := by
  have hleaders : leaders s'.prio L = leaders s.prio L := leaders_congr hprio
  have hprio_out : ∀ x ∈ L, Link.prio x ∉ xs := fun x hx => hout _ (prio_mem_links.mpr hx)
  refine ⟨?_, ?_, fun x hx hnot => ?_, hinv.ascending.congr hprio⟩
  · exact hinv.nodes.frame hsame fun z hz => hout z (nodes_subset_links hz)
  · rw [hleaders]
    exact hinv.prios.frame hsame fun x hx => hprio_out x (leaders_subset L hx)
  · rw [hleaders] at hnot
    refine (hinv.followers x hx hnot).frame hsame fun z hz => ?_
    rw [List.mem_singleton.mp hz]
    exact hprio_out x hx

omit [DecidableEq η] [DecidableEq ν] in
theorem Idle.frame (hidle : Idle s x) (hsame : SameOutside s.mem s'.mem xs)
    (hprio : Link.prio x ∉ xs) (hnode : Link.node x ∉ xs) : Idle s' x :=
  ⟨hidle.prio.frame hsame (by simpa using hprio), hidle.node.frame hsame (by simpa using hnode)⟩

theorem plistNodeInit_spec (prio : Int) (hnode : s.mem.live (.node n) = true)
    (hprio : s.mem.live (.prio n) = true) :
    ∃ s', plistNodeInit (.addr (.node n)) prio s = some s' ∧ Idle s' n ∧
      s'.prio = Function.update s.prio n prio ∧ s'.warnings = s.warnings ∧
      SameOutside s.mem s'.mem [.prio n, .node n] := by
  obtain ⟨m₁, hrun₁, hring₁, hsame₁⟩ := initListHead_spec hprio
  have hlive : m₁.live (.node n) = true := by rwa [hsame₁.live]
  obtain ⟨m₂, hrun₂, hring₂, hsame₂⟩ := initListHead_spec hlive
  refine ⟨{ s with mem := m₂, prio := Function.update s.prio n prio }, ?_,
    ⟨hring₁.frame hsame₂ (by simp), hring₂⟩, rfl, rfl, ?_⟩
  · simp [plistNodeInit, PlistMem.setPrio, hnode, PlistMem.onMem, prioList, hrun₁, hrun₂]
  · exact (hsame₁.mono (by simp)).trans (hsame₂.mono (by simp))

theorem reached_init (hhead : s₀.mem.live (.head h) = true) :
    ∃ s, plistHeadInit (.addr (.head h)) s₀ = some s ∧ Reached s₀ s h [] := by
  obtain ⟨m', hrun, hring, hsame⟩ := initListHead_spec hhead
  refine ⟨{ s₀ with mem := m' }, by simp [plistHeadInit, PlistMem.onMem, hrun],
    ⟨hring, trivial, ?_, List.Pairwise.nil⟩, ?_, rfl, rfl, hsame.live⟩
  · exact fun x hx => absurd hx List.not_mem_nil
  · rintro n ⟨k, hk⟩ -
    exact absurd hk List.not_mem_nil

omit [DecidableEq η] in
theorem Reached.idle_other (hreach : Reached s₀ s h hist) (hquiet : Quiet s s' (links h K))
    (hK : ∀ n ∈ K, n = x ∨ OnQueue hist n) (hop : ∀ n k, op ≠ .init n k) :
    ∀ n, n ≠ x → Initialised (op :: hist) n → ¬ OnQueue hist n → Idle s' n := by
  intro n hn hinit hnot
  have hinit' : Initialised hist n :=
    hinit.of_cons.resolve_left fun ⟨k, heq⟩ => hop n k heq
  have hout : n ∉ K := fun hmem => (hK n hmem).elim hn hnot
  exact (hreach.idle n hinit' hnot).frame hquiet.mem (by simpa using hout) (by simpa using hout)

/-- One request keeps the plist and the queue together. -/
theorem reached_step (hreach : Reached s₀ s h hist) (hvalid : Valid (op :: hist))
    (hlive : ∀ n, Initialised (op :: hist) n →
      s₀.mem.live (.node n) = true ∧ s₀.mem.live (.prio n) = true)
    (hfuel : hist.length + 1 < fuel) :
    ∃ s', exec fuel h op s = some s' ∧ Reached s₀ s' h (op :: hist) := by
  have hmem : ∀ n, n ∈ contents s₀.prio hist ↔ OnQueue hist n := fun n =>
    mem_contents_iff hvalid.tail
  have hlen : (contents s₀.prio hist).length ≤ hist.length := length_contents_le
  cases op with
  | init n prio =>
      have hnode : s.mem.live (.node n) = true := by
        rw [hreach.live]
        exact (hlive n ⟨prio, List.mem_cons_self⟩).1
      have hprio : s.mem.live (.prio n) = true := by
        rw [hreach.live]
        exact (hlive n ⟨prio, List.mem_cons_self⟩).2
      obtain ⟨s', hrun, hidle, hprio', hwarnings, hsame⟩ := plistNodeInit_spec prio hnode hprio
      have hn : n ∉ contents s₀.prio hist := fun hn => hvalid.1 ((hmem n).mp hn)
      refine ⟨s', hrun, hreach.inv.frame hsame ?_ fun x hx => ?_, fun x hinit hnot => ?_, ?_,
        hwarnings.trans hreach.warnings, hsame.live.trans hreach.live⟩
      · intro z hz
        cases z with
        | head h' => simp
        | prio x => simpa using fun heq : x = n => hn (heq ▸ prio_mem_links.mp hz)
        | node x => simpa using fun heq : x = n => hn (heq ▸ node_mem_links.mp hz)
      · have hxn : x ≠ n := fun heq => hn (heq ▸ hx)
        simp [hprio', hxn]
      · by_cases hxn : x = n
        · exact hxn ▸ hidle
        · have hinit' : Initialised hist x := hinit.of_cons.resolve_left fun ⟨k, heq⟩ =>
            hxn (by simpa [eq_comm] using (Request.init.inj heq).1)
          exact (hreach.idle x hinit' hnot).frame hsame (by simpa using hxn) (by simpa using hxn)
      · rw [hprio', hreach.prio, keyOf]
  | add n =>
      have hn : n ∉ contents s₀.prio hist := fun hn => hvalid.1.2 ((hmem n).mp hn)
      obtain ⟨s', hrun, hinv, hquiet⟩ := plistAdd_spec hreach.inv
        (hreach.idle n hvalid.1.1 hvalid.1.2) hn (show _ < fuel by omega)
      rw [hreach.prio] at hinv
      refine ⟨s', hrun, hinv, fun x hinit hnot => ?_, hquiet.prio.trans hreach.prio,
        hquiet.warnings.trans hreach.warnings, hquiet.mem.live.trans hreach.live⟩
      obtain ⟨hxn, hnot'⟩ := not_or.mp hnot
      refine hreach.idle_other hquiet (fun y hy => ?_) (by simp) x hxn hinit hnot'
      simpa [hmem] using hy
  | del n =>
      obtain ⟨A, B, hL, herase, -⟩ := hreach.inv.exists_split ((hmem n).mpr hvalid.1)
      obtain ⟨s', hrun, hinv, hidle, hquiet⟩ := plistDel_spec (hL ▸ hreach.inv)
        (show _ < fuel by rw [← hL]; omega)
      rw [← herase] at hinv
      refine ⟨s', hrun, hinv, fun x hinit hnot => ?_, hquiet.prio.trans hreach.prio,
        hquiet.warnings.trans hreach.warnings, hquiet.mem.live.trans hreach.live⟩
      by_cases hxn : x = n
      · exact hxn ▸ hidle
      · have hnot' : ¬ OnQueue hist x := fun hx => hnot ⟨hxn, hx⟩
        refine hreach.idle_other hquiet (fun y hy => ?_) (by simp) x hxn hinit hnot'
        exact .inr ((hmem y).mp (hL ▸ hy))
  | requeue n =>
      obtain ⟨A, B, hL, herase, -⟩ := hreach.inv.exists_split ((hmem n).mpr hvalid.1)
      obtain ⟨s', hrun, hinv, hquiet⟩ := plistRequeue_spec (hL ▸ hreach.inv)
        (show _ < fuel by rw [← hL]; omega)
      rw [← herase, hreach.prio] at hinv
      refine ⟨s', hrun, hinv, fun x hinit hnot => ?_, hquiet.prio.trans hreach.prio,
        hquiet.warnings.trans hreach.warnings, hquiet.mem.live.trans hreach.live⟩
      have hxn : x ≠ n := fun heq => hnot (heq ▸ hvalid.1)
      refine hreach.idle_other hquiet (fun y hy => ?_) (by simp) x hxn hinit hnot
      exact .inr ((hmem y).mp (hL ▸ hy))

/-- Every valid history runs without a fault. -/
theorem run_reached (hvalid : Valid hist) (hhead : s₀.mem.live (.head h) = true)
    (hlive : ∀ n, Initialised hist n →
      s₀.mem.live (.node n) = true ∧ s₀.mem.live (.prio n) = true)
    (hfuel : hist.length < fuel) :
    ∃ s, run fuel h hist s₀ = some s ∧ Reached s₀ s h hist := by
  induction hist with
  | nil => exact reached_init hhead
  | cons op hist ih =>
      obtain ⟨s, hrun, hreach⟩ := ih hvalid.tail (fun n hn => hlive n hn.mono)
        (show _ < fuel by simp only [List.length_cons] at hfuel; omega)
      obtain ⟨s', hexec, hreach'⟩ := reached_step hreach hvalid hlive hfuel
      exact ⟨s', by rw [run, hrun, Option.bind_some, hexec], hreach'⟩

end Step

section Client

/-- What a client sees after the requests `hist`: the plist is the sequence `L`
with the leaders `Q`. -/
structure Consistent (s : PlistMem η ν) (h : η) (hist : List (Request ν Int)) (L Q : List ν) :
    Prop where
  /-- The nodes added and not deleted are linked on `node_list`. -/
  nodes : s.mem.Ring (.head h) (L.map .node)
  mem_iff : ∀ n, n ∈ L ↔ OnQueue hist n
  /-- They are in ascending order, and first in first out among equals. -/
  fifo : Fifo s.prio (lastQueued hist) L
  /-- The first nodes of each priority are linked on `prio_list`, in ascending
  order. -/
  prios : PrioRing s.mem Q
  leaders_lt : Q.Pairwise fun x y => s.prio x < s.prio y
  leaders_sublist : Q.Sublist L
  leader_iff : ∀ A x B, L = A ++ x :: B → (x ∈ Q ↔ ∀ a ∈ A, s.prio a ≠ s.prio x)
  /-- The other nodes and the deleted ones are linked to themselves. -/
  followers : ∀ x ∈ L, x ∉ Q → s.mem.Ring (.prio x) []
  idle : ∀ n, Initialised hist n → ¬ OnQueue hist n → Idle s n
  /-- `plist_first` is a node of the lowest priority value. -/
  first : ∀ n, OnQueue hist n → ∃ x, plistFirst (.addr (.head h)) s = some (.addr (.node x)) ∧
    OnQueue hist x ∧ ∀ y, OnQueue hist y → s.prio x ≤ s.prio y
  /-- `plist_last` is a node of the highest priority value. -/
  last : ∀ n, OnQueue hist n → ∃ x, plistLast (.addr (.head h)) s = some (.addr (.node x)) ∧
    OnQueue hist x ∧ ∀ y, OnQueue hist y → s.prio y ≤ s.prio x

omit [DecidableEq η] in
theorem Reached.consistent (hreach : Reached s₀ s h hist) (hvalid : Valid hist) :
    Consistent s h hist (contents s₀.prio hist) (leaders s.prio (contents s₀.prio hist)) := by
  have hinv := hreach.inv
  have hmem : ∀ n, n ∈ contents s₀.prio hist ↔ OnQueue hist n := fun n =>
    mem_contents_iff hvalid
  have hfifo : Fifo s.prio (lastQueued hist) (contents s₀.prio hist) := by
    rw [hreach.prio]
    exact contents_fifo hvalid
  refine ⟨hinv.nodes, hmem, hfifo, hinv.prios, hinv.ascending.leaders_lt,
    Queue.leaders_sublist _, fun A x B hL => ?_, hinv.followers, hreach.idle,
    fun n hn => ?_, fun n hn => ?_⟩
  · have hnodup : (A ++ x :: B).Nodup := hL ▸ contents_nodup hvalid
    have hx : x ∉ A := fun hx => List.disjoint_of_nodup_append hnodup hx List.mem_cons_self
    rw [hL]
    exact mem_leaders_iff hx
  · cases hL : contents s₀.prio hist with
    | nil => exact absurd ((hmem n).mpr hn) (by simp [hL])
    | cons x L =>
        -- the first node has the lowest priority value
        have hasc : Ascending s.prio (x :: L) := hL ▸ hinv.ascending
        refine ⟨x, plistFirst_cons (hL ▸ hinv), (hmem x).mp (by simp [hL]), fun y hy => ?_⟩
        have hy' : y ∈ x :: L := hL ▸ (hmem y).mpr hy
        rcases List.mem_cons.mp hy' with rfl | hy'
        · exact le_refl _
        · exact (List.pairwise_cons.mp hasc).1 y hy'
  · rcases List.eq_nil_or_concat' (contents s₀.prio hist) with hL | ⟨L, x, hL⟩
    · exact absurd ((hmem n).mpr hn) (by simp [hL])
    · have hasc : Ascending s.prio (L ++ [x]) := hL ▸ hinv.ascending
      refine ⟨x, ?_, (hmem x).mp (by simp [hL]), fun y hy => ?_⟩
      · rw [plistLast_eq hinv, hL]
        simp
      · have hy' : y ∈ L ++ [x] := hL ▸ (hmem y).mpr hy
        rcases List.mem_append.mp hy' with hy' | hy'
        · exact (List.pairwise_append.mp hasc).2.2 y hy' x List.mem_cons_self
        · rw [List.mem_singleton.mp hy']

/-- After every valid history the plist is a stable priority queue of the nodes
that were added and not deleted, and no warning was printed on the way. -/
theorem plist_consistent (hvalid : Valid hist) (hhead : s₀.mem.live (.head h) = true)
    (hlive : ∀ n, Initialised hist n →
      s₀.mem.live (.node n) = true ∧ s₀.mem.live (.prio n) = true)
    (hfuel : hist.length < fuel) :
    ∃ s L Q, run fuel h hist s₀ = some s ∧ Consistent s h hist L Q ∧
      s.prio = keyOf s₀.prio hist ∧ s.warnings = s₀.warnings := by
  obtain ⟨s, hrun, hreach⟩ := run_reached hvalid hhead hlive hfuel
  exact ⟨s, _, _, hrun, hreach.consistent hvalid, hreach.prio, hreach.warnings⟩

/-- Memory in which nothing is initialised. -/
def blank : PlistMem Unit Nat where
  mem := { live := fun _ => true, next := fun _ => .null, prev := fun _ => .null }
  prio _ := 0
  warnings := 0

/-- Four nodes, three of them of the same priority; the oldest of these goes behind the other
ones, and one of them is deleted. -/
def sample : List (Request Nat Int) :=
  [.del 3, .requeue 1, .add 4, .add 3, .add 2, .add 1, .init 4 5, .init 3 5, .init 2 3, .init 1 5]

theorem plist_consistent_sample :
    ∃ s Q, run 12 () sample blank = some s ∧ Consistent s () sample [2, 4, 1] Q ∧
      s.prio = keyOf (fun _ => 0) sample ∧ s.warnings = 0 := by
  obtain ⟨s, L, Q, hrun, hconsistent, hrest⟩ := @plist_consistent _ _ _ _ blank () sample 12
    (by simp [sample, Valid, OnQueue, Initialised]) rfl (fun _ _ => ⟨rfl, rfl⟩) (by decide)
  -- the nodes that are linked when the run ends
  have hnodes : (run 12 () sample blank).map (fun s =>
      decide (s.mem.Ring (.head ()) ([2, 4, 1].map .node))) = some true := by
    decide +kernel
  rw [hrun, Option.map_some, Option.some.injEq, decide_eq_true_eq] at hnodes
  have hL : L.map Link.node = ([2, 4, 1].map .node : List (Link Unit Nat)) :=
    hconsistent.nodes.unique hnodes
  obtain rfl : L = [2, 4, 1] := List.map_injective_iff.mpr (fun _ _ => Link.node.inj) hL
  exact ⟨s, Q, hrun, hconsistent, hrest⟩

end Client

end Plist
end Brlib
