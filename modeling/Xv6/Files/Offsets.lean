import Xv6.Files.Inode
import Xv6.Lib.Transition

/-!
# Shared offsets

`fileread` and `filewrite` of `file.c` for files that are inodes. A `struct file` is shared through `dup` and
`fork`, so any process may have it open. What runs under one inode lock is one step: the whole of `fileread`,
one round of the loop of `filewrite`. A process in `filewrite` does nothing else.
-/

namespace Xv6.Files

open Kernel (Pages userByte reach Copied)

/-- `struct file` of type `FD_INODE`. -/
structure File where
  readable : Bool
  writable : Bool
  ip : Nat
  off : Word

/-- `if(r > 0) f->off += r`. -/
def File.advance (f : File) (r : Int) : File :=
  if r > 0 then { f with off := f.off + BitVec.ofInt 32 r } else f

/-- A `fileread`: its arguments, what it finds, and what it leaves. -/
structure Read where
  f : Nat
  addr : Nat
  n : Word
  before : File
  ip : Inode
  user : Pages
  result : Int
  after : File
  userAfter : Pages
  moved : Nat

def fileread (f : Nat) (before : File) (ip : Inode) (user : Pages) (addr : Nat) (n : Word) : Read :=
  if before.readable = false then
    { f, addr, n, before, ip, user, result := -1, after := before, userAfter := user, moved := 0 }
  else
    let r := readi ip user addr before.off n
    { f, addr, n, before, ip, user, result := r.1, after := before.advance r.1, userAfter := r.2.1, moved := r.2.2 }

/-- A round of `filewrite`. -/
structure Chunk where
  f : Nat
  addr : Nat
  n : Word
  before : File
  ip : Inode
  user : Pages
  result : Int
  after : File
  ipAfter : Inode

/-- What `filewrite` does under one inode lock. -/
def fileround (f : Nat) (before : File) (ip : Inode) (user : Pages) (addr : Nat) (n : Word) : Chunk :=
  let r := writei ip user addr before.off n
  { f, addr, n, before, ip, user, result := r.1, after := before.advance r.1, ipAfter := r.2 }

/-- A `filewrite`, with its rounds so far, the last first. `stop` is that it is out of its loop by `break`. -/
structure Call where
  f : Nat
  addr : Nat
  n : Word
  user : Pages
  i : Int
  stop : Bool
  chunks : List Chunk

/-- The most that `filewrite` writes at a time. -/
def maxChunk : Nat := (maxOpBlocks - 1 - 1 - 2) / 2 * bsize

/-- `n1`. -/
def Call.next (call : Call) : Int :=
  if call.n.toInt - call.i > maxChunk then maxChunk else call.n.toInt - call.i

def Call.round (call : Call) (chunk : Chunk) : Call :=
  if chunk.result ≠ call.next then { call with stop := true, chunks := chunk :: call.chunks }
  else { call with i := call.i + chunk.result, chunks := chunk :: call.chunks }

/-- What `filewrite` returns. -/
def Call.ret (call : Call) : Int := if call.i = call.n.toInt then call.n.toInt else -1

/-- The open files, the inodes and the memory of the processes. The lists are a history of what has been done
through the files, the last first. -/
structure State where
  file : Nat → File
  inode : Nat → Inode
  user : Nat → Pages
  call : Nat → Option Call
  reads : List Read
  chunks : List Chunk
  writes : List (Call × Int)

/-- The steps of the processes. Other system calls change inodes, and a process changes its memory. -/
inductive Action where
  | read (who f addr : Nat) (n : Word)
  | write (who f addr : Nat) (n : Word)
  | round (who : Nat)
  | ret (who : Nat)
  | inode (i : Nat) (ip : Inode)
  | user (who : Nat) (pages : Pages)

/-- `who` reads. -/
def State.read (s : State) (who f addr : Nat) (n : Word) : State :=
  let r := fileread f (s.file f) (s.inode (s.file f).ip) (s.user who) addr n
  { s with
    file := Function.update s.file f r.after
    user := Function.update s.user who r.userAfter
    reads := r :: s.reads }

/-- `who` begins to write. -/
def State.write (s : State) (who f addr : Nat) (n : Word) : State :=
  let call : Call := { f, addr, n, user := s.user who, i := 0, stop := false, chunks := [] }
  if (s.file f).writable = false then { s with writes := (call, -1) :: s.writes }
  else { s with call := Function.update s.call who (some call) }

/-- `who` writes a few blocks. -/
def State.round (s : State) (who : Nat) (call : Call) : State :=
  let file := s.file call.f
  let chunk := fileround call.f file (s.inode file.ip) (s.user who) (call.addr + call.i.toNat)
    (BitVec.ofInt 32 call.next)
  { s with
    file := Function.update s.file call.f chunk.after
    inode := Function.update s.inode file.ip chunk.ipAfter
    call := Function.update s.call who (some (call.round chunk))
    chunks := chunk :: s.chunks }

def step (s : State) : Action → Option State
  | .read who f addr n => if (s.call who).isNone then some (s.read who f addr n) else none
  | .write who f addr n => if (s.call who).isNone then some (s.write who f addr n) else none
  | .round who => (s.call who).bind fun call =>
      if call.stop = false ∧ call.i < call.n.toInt then some (s.round who call) else none
  | .ret who => (s.call who).bind fun call =>
      if call.stop = false ∧ call.i < call.n.toInt then none
      else some { s with call := Function.update s.call who none, writes := (call, call.ret) :: s.writes }
  | .inode i ip =>
      if ip.size.toNat ≤ maxFile * bsize then some { s with inode := Function.update s.inode i ip } else none
  | .user who pages =>
      if (s.call who).isNone then some { s with user := Function.update s.user who pages } else none

/-- Nobody reads or writes yet. -/
structure Start (s : State) : Prop where
  size : ∀ i, (s.inode i).size.toNat ≤ maxFile * bsize
  call : ∀ who, s.call who = none
  reads : s.reads = []
  chunks : s.chunks = []
  writes : s.writes = []

/-! ### What is to hold of the history -/

/-- A read that succeeds delivers what it counts, from the offset on, and the offset moves by that. -/
structure Read.Sound (r : Read) : Prop where
  off : r.after.off.toNat = r.before.off.toNat + r.result.toNat
  delivered : 0 ≤ r.result → (r.moved : Int) = r.result ∧
    Copied r.user r.userAfter r.addr r.moved fun i => r.ip.byte (r.before.off.toNat + i)

def Read.Silent (r : Read) : Prop := r.n.toInt < 0 → r.moved = 0

/-- A round stores what it counts at the offset, and the offset moves by that. -/
structure Chunk.Sound (c : Chunk) : Prop where
  result : c.result = -1 ∨ 0 ≤ c.result ∧ c.result ≤ c.n.toNat
  off : c.after.off.toNat = c.before.off.toNat + c.result.toNat
  stored : Stored c.user c.ip c.ipAfter c.addr c.before.off.toNat c.result.toNat (c.before.off.toNat + c.n.toNat)

def stored (chunks : List Chunk) : Nat := (chunks.map fun c => c.result.toNat).sum

/-- The rounds of a call take the bytes from `addr` on, each from where the one before it ended. -/
def Call.Follows (call : Call) : List Chunk → Prop
  | [] => True
  | c :: earlier =>
      (c.f = call.f ∧ c.user = call.user ∧ c.addr = call.addr + stored earlier) ∧ call.Follows earlier

/-- A `filewrite` that returned `ret`. -/
structure Call.Sound (call : Call) (ret : Int) (log : List Chunk) : Prop where
  chunks : ∀ c ∈ call.chunks, c ∈ log
  follows : call.Follows call.chunks
  off : (call.chunks.map fun c => c.after.off.toNat - c.before.off.toNat).sum = stored call.chunks
  ret : ret = call.n.toInt ∧ (stored call.chunks : Int) = call.n.toInt ∨ ret = -1

/-- A later round through the same file is behind the bytes of an earlier one, and leaves them. -/
def Apart (later earlier : Chunk) : Prop := later.f = earlier.f →
  earlier.before.off.toNat + earlier.result.toNat ≤ later.before.off.toNat ∧
    ∀ i, i < earlier.before.off.toNat + earlier.result.toNat → later.ipAfter.byte i = later.ip.byte i

def State.moved (s : State) (f : Nat) : Nat :=
  ((s.reads.filter (·.f == f)).map fun r => r.result.toNat).sum + stored (s.chunks.filter (·.f == f))

/-- `read` and `write` have moved the offsets consistently since `start`. -/
structure Consistent (start s : State) : Prop where
  silent : ∀ r ∈ s.reads, r.Silent
  reads : ∀ r ∈ s.reads, r.Sound
  chunks : ∀ c ∈ s.chunks, c.Sound
  writes : ∀ w ∈ s.writes, w.1.Sound w.2 s.chunks
  apart : s.chunks.Pairwise Apart
  off : ∀ f, (s.file f).off.toNat = (start.file f).off.toNat + s.moved f

/-- `readi` has nothing to move for a negative number of bytes. -/
def Read.Quiet (r : Read) : Prop := r.n.toInt < 0 →
  r.before.readable = false ∨ r.before.off ≥ r.ip.size ∨ r.before.off + r.n < r.before.off ∨
    r.user (r.addr / Kernel.pgsize) = none

/-! ### One system call -/

section Calls

variable {file : File} {ip : Inode} {user : Pages} {f addr : Nat} {n : Word}

theorem advance_off {count : Nat} (h : file.off.toNat + count < 2 ^ 32) :
    (file.advance count).off.toNat = file.off.toNat + count := by
  unfold File.advance
  split
  · rw [BitVec.ofInt_natCast, BitVec.toNat_add, BitVec.toNat_ofNat]
    omega
  · next hzero =>
    rw [show count = 0 by omega]
    rfl

theorem advance_fail : file.advance (-1) = file := by
  rw [File.advance, if_neg (by decide)]

theorem fileread_sound (hsize : ip.size.toNat ≤ maxFile * bsize) :
    (fileread f file ip user addr n).Sound := by
  unfold fileread
  split
  · exact ⟨rfl, fun h => absurd h (show ¬(0 : Int) ≤ -1 by decide)⟩
  · obtain ⟨hresult, hmoved, hcopied⟩ := readi_spec hsize user addr file.off n
    have hend := @readCount_le ip.size file.off n
    generalize readi ip user addr file.off n = r at hresult hmoved hcopied ⊢
    generalize readCount ip.size file.off n = count at hresult hmoved hcopied hend
    dsimp only
    by_cases hall : reach user count addr = count
    · rw [if_pos hall] at hresult
      rw [hall] at hmoved hcopied
      refine ⟨?_, fun _ => ?_⟩
      · rw [hresult, Int.toNat_natCast]
        refine advance_off ?_
        have hsmall := hsize.trans_lt maxFile_small
        have hoff := file.off.isLt
        rcases Nat.eq_zero_or_pos count with hzero | hpos
        · omega
        · have := hend hpos
          omega
      · rw [hresult, hmoved]
        exact ⟨rfl, hcopied⟩
    · rw [if_neg hall] at hresult
      rw [hresult, advance_fail]
      exact ⟨rfl, fun h => absurd h (show ¬(0 : Int) ≤ -1 by decide)⟩

theorem silent_iff (hsize : ip.size.toNat ≤ maxFile * bsize) :
    (fileread f file ip user addr n).Silent ↔ (fileread f file ip user addr n).Quiet := by
  unfold fileread
  split
  · next hreadable => exact iff_of_true (fun _ => rfl) fun _ => Or.inl hreadable
  · next hreadable =>
    obtain ⟨-, hmoved, -⟩ := readi_spec hsize user addr file.off n
    refine forall_congr' fun hneg => ?_
    dsimp only at hneg ⊢
    rw [hmoved, or_iff_right hreadable, ← or_assoc, ← readCount_eq_zero_iff hneg]
    cases readCount ip.size file.off n with
    | zero => exact iff_of_true rfl (Or.inl rfl)
    | succ count => rw [Kernel.reach_eq_zero_iff, or_iff_right (Nat.succ_ne_zero count)]

theorem fileround_sound : (fileround f file ip user addr n).Sound := by
  unfold fileround
  rcases writei_spec ip user addr file.off n with ⟨hresult, hsame⟩ | ⟨count, hresult, hcount, hend, hstored⟩
  · dsimp only
    rw [hresult, hsame, advance_fail]
    exact ⟨Or.inl rfl, rfl, fun i hi => absurd hi (Nat.not_lt_zero i), fun _ _ => rfl⟩
  · dsimp only
    rw [hresult]
    have hsmall := maxFile_small
    refine ⟨Or.inr ⟨Int.natCast_nonneg count, Int.ofNat_le.mpr hcount⟩, ?_, ?_⟩
    · rw [Int.toNat_natCast]
      exact advance_off (by omega)
    · rwa [Int.toNat_natCast]

end Calls

/-! ### A whole run -/

section Run

variable {start s s' : State} {call : Call} {log log' : List Chunk}

/-- A `filewrite` that is going on. -/
structure Call.Going (call : Call) (user : Pages) (log : List Chunk) : Prop where
  user : call.user = user
  chunks : ∀ c ∈ call.chunks, c ∈ log
  follows : call.Follows call.chunks
  off : (call.chunks.map fun c => c.after.off.toNat - c.before.off.toNat).sum = stored call.chunks
  nonneg : 0 ≤ call.i
  full : call.stop = false → call.i = stored call.chunks ∧ (call.i ≤ call.n.toInt ∨ call.i = 0)
  short : call.stop = true → call.i < call.n.toInt

structure Inv (start s : State) : Prop where
  size : ∀ i, (s.inode i).size.toNat ≤ maxFile * bsize
  reads : ∀ r ∈ s.reads, r.Sound ∧ (r.Silent ↔ r.Quiet)
  chunks : ∀ c ∈ s.chunks, c.Sound
  writes : ∀ w ∈ s.writes, w.1.Sound w.2 s.chunks
  apart : s.chunks.Pairwise Apart
  off : ∀ f, (s.file f).off.toNat = (start.file f).off.toNat + s.moved f
  behind : ∀ c ∈ s.chunks, c.after.off.toNat ≤ (s.file c.f).off.toNat
  call : ∀ who call, s.call who = some call → call.Going (s.user who) s.chunks

theorem Call.Going.mono {user : Pages} (h : call.Going user log) (hlog : ∀ c ∈ log, c ∈ log') :
    call.Going user log' := { h with chunks := fun c hc => hlog c (h.chunks c hc) }

theorem Call.Sound.mono {ret : Int} (h : call.Sound ret log) (hlog : ∀ c ∈ log, c ∈ log') :
    call.Sound ret log' := { h with chunks := fun c hc => hlog c (h.chunks c hc) }

theorem Call.Going.sound {user : Pages} (h : call.Going user log) : call.Sound call.ret log := by
  refine ⟨h.chunks, h.follows, h.off, ?_⟩
  unfold Call.ret
  split
  · next hall =>
    cases hstop : call.stop with
    | false => exact Or.inl ⟨rfl, (h.full hstop).1.symm.trans hall⟩
    | true => exact absurd hall (Int.ne_of_lt (h.short hstop))
  · exact Or.inr rfl

theorem next_bounds (hlt : call.i < call.n.toInt) :
    0 < call.next ∧ call.next ≤ call.n.toInt - call.i := by
  have hmax : (0 : Int) < maxChunk := by decide
  unfold Call.next
  split <;> omega

theorem Call.Going.round {c : Chunk} (h : call.Going c.user log) (hstop : call.stop = false)
    (hlt : call.i < call.n.toInt) (hc : c.Sound) (hf : c.f = call.f) (haddr : c.addr = call.addr + call.i.toNat) :
    (call.round c).Going c.user (c :: log) := by
  obtain ⟨hi, -⟩ := h.full hstop
  obtain ⟨hpos, hnext⟩ := next_bounds hlt
  have hmem : ∀ c' ∈ c :: call.chunks, c' ∈ c :: log := by
    intro c' hc'
    rcases List.mem_cons.mp hc' with rfl | hold
    · exact List.mem_cons_self
    · exact List.mem_cons_of_mem _ (h.chunks c' hold)
  have hfollows : call.Follows (c :: call.chunks) := by
    refine ⟨⟨hf, h.user.symm, ?_⟩, h.follows⟩
    rw [haddr, hi, Int.toNat_natCast]
  have hoff : ((c :: call.chunks).map fun c => c.after.off.toNat - c.before.off.toNat).sum =
      stored (c :: call.chunks) := by
    rw [List.map_cons, List.sum_cons, h.off, hc.off, Nat.add_sub_cancel_left]
    rfl
  have hsame : ∀ i stop chunks, Call.Follows { call with i, stop, chunks } = call.Follows := by
    intro i stop chunks
    funext l
    induction l with
    | nil => rfl
    | cons c rest ih => simp only [Call.Follows, ih]
  unfold Call.round
  split
  · exact ⟨h.user, hmem, by rw [hsame]; exact hfollows, hoff, h.nonneg, fun hfalse => absurd hfalse (by simp),
      fun _ => hlt⟩
  · next hall =>
    have hall : c.result = call.next := not_not.mp hall
    refine ⟨h.user, hmem, by rw [hsame]; exact hfollows, hoff, ?_, fun _ => ⟨?_, Or.inl ?_⟩,
      fun htrue => absurd htrue (by simp [hstop])⟩
    · exact Int.add_nonneg h.nonneg (by omega)
    · change call.i + c.result = ((c.result.toNat + stored call.chunks : Nat) : Int)
      omega
    · change call.i + c.result ≤ call.n.toInt
      omega

theorem inv_start (h : Start start) : Inv start start where
  size := h.size
  reads r hr := absurd (h.reads ▸ hr) List.not_mem_nil
  chunks c hc := absurd (h.chunks ▸ hc) List.not_mem_nil
  writes w hw := absurd (h.writes ▸ hw) List.not_mem_nil
  apart := by rw [h.chunks]; exact .nil
  off f := by rw [State.moved, h.reads, h.chunks]; rfl
  behind c hc := absurd (h.chunks ▸ hc) List.not_mem_nil
  call who call hcall := absurd (h.call who ▸ hcall) (by simp)

theorem off_update {file : Nat → File} {f g r : Nat} {after : File} (h : after.off.toNat = (file f).off.toNat + r) :
    (Function.update file f after g).off.toNat = (file g).off.toNat + if f = g then r else 0 := by
  by_cases hg : g = f
  · rw [hg, Function.update_self, if_pos rfl, h]
  · rw [Function.update_of_ne hg, if_neg (Ne.symm hg), Nat.add_zero]

theorem inv_read (h : Inv start s) {who f addr : Nat} {n : Word} (hidle : (s.call who).isNone) :
    Inv start (s.read who f addr n) := by
  have hsize := h.size (s.file f).ip
  have hsound := @fileread_sound (s.file f) _ (s.user who) f addr n hsize
  have hsilent := @silent_iff (s.file f) _ (s.user who) f addr n hsize
  have hf : (fileread f (s.file f) (s.inode (s.file f).ip) (s.user who) addr n).f = f := by
    unfold fileread
    split <;> rfl
  have hbefore : (fileread f (s.file f) (s.inode (s.file f).ip) (s.user who) addr n).before = s.file f := by
    unfold fileread
    split <;> rfl
  unfold State.read
  generalize fileread f (s.file f) (s.inode (s.file f).ip) (s.user who) addr n = r at *
  have hoff := hbefore ▸ hsound.off
  have hmove := fun g => @off_update s.file f g r.result.toNat r.after hoff
  refine ⟨h.size, ?_, h.chunks, h.writes, h.apart, fun g => ?_, fun c hc => ?_, fun other call hcall => ?_⟩
  · intro r' hr'
    rcases List.mem_cons.mp hr' with rfl | hold
    · exact ⟨hsound, hsilent⟩
    · exact h.reads r' hold
  · dsimp only
    rw [hmove, h.off, State.moved, State.moved]
    dsimp only
    by_cases hg : f = g
    · rw [List.filter_cons_of_pos (by simpa [hf] using hg), List.map_cons, List.sum_cons, if_pos hg]
      omega
    · rw [List.filter_cons_of_neg (by simpa [hf] using hg), if_neg hg, Nat.add_zero]
  · have := h.behind c hc
    dsimp only
    rw [hmove]
    omega
  · have hother : other ≠ who := by
      rintro rfl
      rw [hcall] at hidle
      exact absurd hidle (by simp)
    dsimp only
    rw [Function.update_of_ne hother]
    exact h.call other call hcall

theorem inv_write (h : Inv start s) {who f addr : Nat} {n : Word} : Inv start (s.write who f addr n) := by
  unfold State.write
  dsimp only
  split
  · refine { h with writes := fun w hw => ?_ }
    rcases List.mem_cons.mp hw with rfl | hold
    · exact ⟨fun c hc => absurd hc List.not_mem_nil, trivial, rfl, Or.inr rfl⟩
    · exact h.writes w hold
  · refine { h with call := fun other call hcall => ?_ }
    dsimp only at hcall
    by_cases hother : other = who
    · subst hother
      rw [Function.update_self] at hcall
      cases hcall
      exact ⟨rfl, fun c hc => absurd hc List.not_mem_nil, trivial, rfl, Int.le_refl 0,
        fun _ => ⟨rfl, Or.inr rfl⟩, fun hfalse => absurd hfalse (by simp)⟩
    · rw [Function.update_of_ne hother] at hcall
      exact h.call other call hcall

theorem inv_round (h : Inv start s) {who : Nat} (hcall : s.call who = some call) (hstop : call.stop = false)
    (hlt : call.i < call.n.toInt) : Inv start (s.round who call) := by
  have hsound := @fileround_sound (s.file call.f) (s.inode (s.file call.f).ip) (s.user who) call.f
    (call.addr + call.i.toNat) (BitVec.ofInt 32 call.next)
  have hsize := @writei_size (s.inode (s.file call.f).ip) (s.user who) (call.addr + call.i.toNat)
    (h.size _) (s.file call.f).off (BitVec.ofInt 32 call.next)
  unfold State.round
  dsimp only
  have hf : (fileround call.f (s.file call.f) (s.inode (s.file call.f).ip) (s.user who)
    (call.addr + call.i.toNat) (BitVec.ofInt 32 call.next)).f = call.f := rfl
  have hbefore : (fileround call.f (s.file call.f) (s.inode (s.file call.f).ip) (s.user who)
    (call.addr + call.i.toNat) (BitVec.ofInt 32 call.next)).before = s.file call.f := rfl
  have huser : (fileround call.f (s.file call.f) (s.inode (s.file call.f).ip) (s.user who)
    (call.addr + call.i.toNat) (BitVec.ofInt 32 call.next)).user = s.user who := rfl
  have haddr : (fileround call.f (s.file call.f) (s.inode (s.file call.f).ip) (s.user who)
    (call.addr + call.i.toNat) (BitVec.ofInt 32 call.next)).addr = call.addr + call.i.toNat := rfl
  have hafter : (fileround call.f (s.file call.f) (s.inode (s.file call.f).ip) (s.user who)
    (call.addr + call.i.toNat) (BitVec.ofInt 32 call.next)).ipAfter.size.toNat ≤ maxFile * bsize := hsize
  generalize fileround call.f (s.file call.f) (s.inode (s.file call.f).ip) (s.user who)
    (call.addr + call.i.toNat) (BitVec.ofInt 32 call.next) = c at *
  have hoff := hbefore ▸ hsound.off
  have hmove := fun g => @off_update s.file call.f g c.result.toNat c.after hoff
  have hlog : ∀ c' ∈ s.chunks, c' ∈ c :: s.chunks := fun c' hc' => List.mem_cons_of_mem _ hc'
  refine ⟨fun i => ?_, h.reads, fun c' hc' => ?_, fun w hw => (h.writes w hw).mono hlog, ?_, fun g => ?_,
    fun c' hc' => ?_, fun other call' hcall' => ?_⟩
  · dsimp only
    by_cases hi : i = (s.file call.f).ip
    · rwa [hi, Function.update_self]
    · rw [Function.update_of_ne hi]
      exact h.size i
  · rcases List.mem_cons.mp hc' with rfl | hold
    · exact hsound
    · exact h.chunks c' hold
  · refine List.pairwise_cons.mpr ⟨fun earlier hearlier hsame => ?_, h.apart⟩
    have hle : earlier.before.off.toNat + earlier.result.toNat ≤ c.before.off.toNat := by
      calc earlier.before.off.toNat + earlier.result.toNat = earlier.after.off.toNat :=
            (h.chunks earlier hearlier).off.symm
        _ ≤ (s.file earlier.f).off.toNat := h.behind earlier hearlier
        _ = c.before.off.toNat := by rw [hbefore, ← hf, hsame]
    exact ⟨hle, fun i hi => hsound.stored.rest i (Or.inl (by omega))⟩
  · dsimp only
    rw [hmove, h.off, State.moved, State.moved]
    dsimp only
    by_cases hg : call.f = g
    · rw [List.filter_cons_of_pos (by simpa [hf] using hg), if_pos hg, stored, stored, List.map_cons,
        List.sum_cons]
      omega
    · rw [List.filter_cons_of_neg (by simpa [hf] using hg), if_neg hg, Nat.add_zero]
  · dsimp only
    rcases List.mem_cons.mp hc' with rfl | hold
    · rw [hf, Function.update_self]
    · have := h.behind c' hold
      rw [hmove]
      omega
  · dsimp only at hcall' ⊢
    by_cases hother : other = who
    · subst hother
      rw [Function.update_self] at hcall'
      cases hcall'
      have hgoing := huser ▸ h.call other call hcall
      exact huser ▸ hgoing.round hstop hlt hsound hf haddr
    · rw [Function.update_of_ne hother] at hcall'
      exact (h.call other call' hcall').mono hlog

theorem inv_ret (h : Inv start s) {who : Nat} (hcall : s.call who = some call) : Inv start { s with
    call := Function.update s.call who none, writes := (call, call.ret) :: s.writes } := by
  refine { h with writes := fun w hw => ?_, call := fun other call' hcall' => ?_ }
  · rcases List.mem_cons.mp hw with rfl | hold
    · exact (h.call who call hcall).sound
    · exact h.writes w hold
  · dsimp only at hcall'
    by_cases hother : other = who
    · rw [hother, Function.update_self] at hcall'
      cases hcall'
    · rw [Function.update_of_ne hother] at hcall'
      exact h.call other call' hcall'

theorem inv_step {action : Action} (h : Inv start s) (hstep : step s action = some s') : Inv start s' := by
  cases action with
  | read who f addr n =>
      obtain ⟨hidle, ⟨⟩⟩ := Option.ite_none_right_eq_some.mp hstep
      exact inv_read h hidle
  | write who f addr n =>
      obtain ⟨-, ⟨⟩⟩ := Option.ite_none_right_eq_some.mp hstep
      exact inv_write h
  | round who =>
      obtain ⟨call, hcall, hrest⟩ := Option.bind_eq_some_iff.mp hstep
      obtain ⟨⟨hstop, hlt⟩, ⟨⟩⟩ := Option.ite_none_right_eq_some.mp hrest
      exact inv_round h hcall hstop hlt
  | ret who =>
      obtain ⟨call, hcall, hrest⟩ := Option.bind_eq_some_iff.mp hstep
      obtain ⟨-, ⟨⟩⟩ := Option.ite_none_left_eq_some.mp hrest
      exact inv_ret h hcall
  | inode i ip =>
      obtain ⟨hsize, ⟨⟩⟩ := Option.ite_none_right_eq_some.mp hstep
      refine { h with size := fun j => ?_ }
      dsimp only
      by_cases hj : j = i
      · rwa [hj, Function.update_self]
      · rw [Function.update_of_ne hj]
        exact h.size j
  | user who pages =>
      obtain ⟨hidle, ⟨⟩⟩ := Option.ite_none_right_eq_some.mp hstep
      refine { h with call := fun other call hcall => ?_ }
      have hother : other ≠ who := by
        rintro rfl
        rw [hcall] at hidle
        exact absurd hidle (by simp)
      dsimp only
      rw [Function.update_of_ne hother]
      exact h.call other call hcall

/-- **Offsets are consistent** in a run just if every `fileread` of a negative number of bytes had nothing to
move. -/
theorem offsets_consistent_iff {actions : List Action} (hstart : Start start)
    (hrun : Transition.run step start actions = some s) :
    Consistent start s ↔ ∀ r ∈ s.reads, r.Quiet := by
  have h : Inv start s :=
    Transition.invariant_run (fun _ _ _ hinv hstep => inv_step hinv hstep) (inv_start hstart) hrun
  constructor
  · intro hconsistent r hr
    exact (h.reads r hr).2.mp (hconsistent.silent r hr)
  · intro hquiet
    exact ⟨fun r hr => (h.reads r hr).2.mpr (hquiet r hr), fun r hr => (h.reads r hr).1, h.chunks, h.writes,
      h.apart, h.off⟩

end Run

/-- One open file of one byte, at offset zero, and all of user memory mapped. -/
def oneByte : State where
  file _ := { readable := true, writable := true, ip := 0, off := 0 }
  inode _ := { size := 1, block := fun _ _ => 7 }
  user _ _ := some fun _ => 0
  call _ := none
  reads := []
  chunks := []
  writes := []

theorem oneByte_start : Start oneByte where
  size _ := show (1 : Word).toNat ≤ maxFile * bsize by decide
  call _ := rfl
  reads := rfl
  chunks := rfl
  writes := rfl

/-- Two processes write through the file and one of them reads. -/
theorem offsets_consistent_iff_writers : ∃ s, Transition.run step oneByte
      [.write 1 0 0 2, .write 2 0 0 1, .round 2, .round 1, .ret 1, .ret 2, .read 1 0 0 4] = some s ∧
    (Consistent oneByte s ↔ ∀ r ∈ s.reads, r.Quiet) := by
  obtain ⟨s, hrun⟩ : ∃ s, Transition.run step oneByte
      [.write 1 0 0 2, .write 2 0 0 1, .round 2, .round 1, .ret 1, .ret 2, .read 1 0 0 4] = some s := ⟨_, rfl⟩
  exact ⟨s, hrun, offsets_consistent_iff oneByte_start hrun⟩

/-- Reading −1 bytes of it reads it all. -/
theorem not_consistent_minus_one : ∃ s, Transition.run step oneByte [.read 0 0 0 (-1)] = some s ∧
    ¬Consistent oneByte s := by
  refine ⟨_, rfl, fun h => ?_⟩
  have hnothing := h.silent _ List.mem_cons_self (by decide)
  exact absurd hnothing (by decide)

end Xv6.Files
