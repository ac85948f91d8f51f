import Mathlib.Data.Multiset.Basic
import Mathlib.Data.Multiset.AddSub
import Xv6.Lib.Tally

/-!
# The books of the process table

What has been passed to `exit` is what `wait` has returned, together with what the slots still hold of it; and the pids in
the slots and those that were returned are all different.
-/

namespace Xv6

/-- What a table of `n` slots holds: what `exit` has left in a slot for `wait`, and the pid of a slot that is in use. Then
what was passed to `exit`, what `wait` has returned to whom, and the next pid. -/
structure Books (n : Nat) where
  pending : Fin n → Multiset (Nat × Int)
  pid : Fin n → Multiset Nat
  exits : List (Nat × Int)
  reaped : List (Fin n × Nat × Int)
  nextpid : Nat

namespace Books

variable {n : Nat}

def pids (books : Books n) : Multiset Nat := ∑ q, books.pid q + ↑(books.reaped.map fun record => record.2.1)

structure Balanced (books : Books n) : Prop where
  exits : (↑books.exits : Multiset (Nat × Int)) = ∑ q, books.pending q + ↑(books.reaped.map Prod.snd)
  pids : books.pids.Nodup
  fresh : ∀ pid ∈ books.pids, pid < books.nextpid

structure Quiet (books books' : Books n) : Prop where
  pending : ∀ q, books'.pending q = books.pending q
  pid : ∀ q, books'.pid q = books.pid q
  exits : books'.exits = books.exits
  reaped : books'.reaped = books.reaped
  nextpid : books.nextpid ≤ books'.nextpid

theorem Quiet.trans {first second third : Books n} (h : first.Quiet second) (h' : second.Quiet third) : first.Quiet third where
  pending q := (h'.pending q).trans (h.pending q)
  pid q := (h'.pid q).trans (h.pid q)
  exits := h'.exits.trans h.exits
  reaped := h'.reaped.trans h.reaped
  nextpid := h.nextpid.trans h'.nextpid

namespace Balanced

variable {books books' : Books n} {who q : Fin n} {record : Nat × Int}

theorem quiet (h : books.Balanced) (hquiet : books.Quiet books') : books'.Balanced := by
  have hpids : books'.pids = books.pids := by
    unfold Books.pids
    rw [hquiet.reaped, Finset.sum_congr rfl fun q _ => hquiet.pid q]
  constructor
  · rw [hquiet.exits, h.exits, hquiet.reaped, Finset.sum_congr rfl fun q _ => hquiet.pending q]
  · rw [hpids]
    exact h.pids
  · intro pid hmem
    rw [hpids] at hmem
    exact lt_of_lt_of_le (h.fresh pid hmem) hquiet.nextpid

theorem fork (h : books.Balanced) (hpending : ∀ q, books'.pending q = books.pending q)
    (hothers : ∀ p, p ≠ q → books'.pid p = books.pid p) (hold : books.pid q = 0) (hnew : books'.pid q = {books.nextpid})
    (hexits : books'.exits = books.exits) (hreaped : books'.reaped = books.reaped)
    (hnextpid : books'.nextpid = books.nextpid + 1) : books'.Balanced := by
  have hpids : books'.pids = books.nextpid ::ₘ books.pids := by
    have hsum := Tally.sum_exchange hothers
    rw [hold, hnew, add_zero] at hsum
    unfold Books.pids
    rw [hsum, hreaped, ← Multiset.singleton_add]
    abel
  constructor
  · rw [hexits, h.exits, hreaped, Finset.sum_congr rfl fun q _ => hpending q]
  · rw [hpids]
    exact Multiset.nodup_cons.mpr ⟨fun hmem => (h.fresh _ hmem).ne rfl, h.pids⟩
  · intro pid hmem
    rw [hpids, Multiset.mem_cons] at hmem
    rw [hnextpid]
    rcases hmem with rfl | hmem
    · exact Nat.lt_succ_self _
    · exact (h.fresh pid hmem).trans (Nat.lt_succ_self _)

theorem exit (h : books.Balanced) (hothers : ∀ p, p ≠ who → books'.pending p = books.pending p)
    (hold : books.pending who = 0) (hnew : books'.pending who = {record}) (hpid : ∀ q, books'.pid q = books.pid q)
    (hexits : books'.exits = books.exits ++ [record]) (hreaped : books'.reaped = books.reaped)
    (hnextpid : books'.nextpid = books.nextpid) : books'.Balanced := by
  have hpids : books'.pids = books.pids := by
    unfold Books.pids
    rw [hreaped, Finset.sum_congr rfl fun q _ => hpid q]
  constructor
  · have hsum := Tally.sum_exchange hothers
    rw [hold, hnew, add_zero] at hsum
    calc (↑books'.exits : Multiset (Nat × Int))
        = ↑books.exits + {record} := by
          rw [hexits]
          exact (Multiset.coe_add _ _).symm
      _ = ∑ q, books'.pending q + ↑(books'.reaped.map Prod.snd) := by
        rw [h.exits, hsum, hreaped]
        abel
  · rw [hpids]
    exact h.pids
  · rw [hpids, hnextpid]
    exact h.fresh

theorem reap (h : books.Balanced) (hothers : ∀ p, p ≠ q → books'.pending p = books.pending p)
    (hold : books.pending q = {record}) (hnew : books'.pending q = 0)
    (hothersPid : ∀ p, p ≠ q → books'.pid p = books.pid p) (holdPid : books.pid q = {record.1})
    (hnewPid : books'.pid q = 0) (hexits : books'.exits = books.exits)
    (hreaped : books'.reaped = books.reaped ++ [(who, record)]) (hnextpid : books'.nextpid = books.nextpid) :
    books'.Balanced := by
  have hpids : books'.pids = books.pids := by
    have hsum := Tally.sum_exchange hothersPid
    rw [holdPid, hnewPid, add_zero] at hsum
    unfold Books.pids
    rw [← hsum, hreaped, List.map_append, ← Multiset.coe_add, add_assoc]
    exact congrArg _ (add_comm _ _)
  constructor
  · have hsum := Tally.sum_exchange hothers
    rw [hold, hnew, add_zero] at hsum
    calc (↑books'.exits : Multiset (Nat × Int))
        = ∑ p, books.pending p + ↑(books.reaped.map Prod.snd) := by rw [hexits, h.exits]
      _ = ∑ p, books'.pending p + (↑(books.reaped.map Prod.snd) + {record}) := by
        rw [← hsum]
        abel
      _ = ∑ p, books'.pending p + ↑(books'.reaped.map Prod.snd) := by
        rw [hreaped, List.map_append, ← Multiset.coe_add]
        rfl
  · rw [hpids]
    exact h.pids
  · rw [hpids, hnextpid]
    exact h.fresh

theorem nodup_exits (h : books.Balanced) (hle : ∀ q, (books.pending q).map Prod.fst ≤ books.pid q) :
    (books.exits.map Prod.fst).Nodup := by
  have hall : (↑(books.exits.map Prod.fst) : Multiset Nat) ≤ books.pids :=
    calc (↑(books.exits.map Prod.fst) : Multiset Nat)
        = (∑ q, books.pending q + ↑(books.reaped.map Prod.snd)).map Prod.fst := by
          rw [← h.exits]
          rfl
      _ = ∑ q, (books.pending q).map Prod.fst + ↑(books.reaped.map fun record => record.2.1) := by
          rw [Multiset.map_add, Multiset.map_coe, List.map_map]
          exact congrArg (· + _) (map_sum (Multiset.mapAddMonoidHom Prod.fst) _ _)
      _ ≤ books.pids := by
          apply add_le_add_left
          exact Finset.sum_le_sum fun q _ => hle q
  exact Multiset.coe_nodup.mp (Multiset.nodup_of_le hall h.pids)

end Balanced

end Books

end Xv6
