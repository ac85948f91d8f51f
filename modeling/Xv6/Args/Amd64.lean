import Mathlib.Data.BitVec
import Mathlib.Logic.Function.Basic
import Mathlib.Tactic.Common

/-!
# System call arguments on amd64

What `syscall.c` tests before it follows a pointer from a user register, and what it and its callers then
read and write. Sums wrap at 64 bits, `argptr` tests 32 bits of its pointer, and `fetchint` tests four
bytes and reads eight: the theorem says for which arguments each test is nevertheless enough.
-/

namespace Xv6.Args

abbrev Addr := BitVec 64

abbrev Byte := BitVec 8

/-- What of a process the functions look at. -/
structure Proc where
  sz : Addr
  mem : Addr → Byte
  /-- `rdi`, `rsi`, `rdx`, `r10`, `r8` and `r9`. -/
  sf : Fin 6 → Addr

/-! ### The code -/

/-- The addresses of `n` bytes. -/
def bytes (addr : Addr) (n : Nat) : List Addr := (List.range n).map fun k => addr + BitVec.ofNat 64 k

/-- `*(uint64*)(addr)`. -/
def load (mem : Addr → Byte) (addr : Addr) : Addr :=
  (bytes addr 8).foldr (fun a word => word <<< 8 ||| (mem a).setWidth 64) 0

/-- What a function returns when it succeeds, and the addresses of the bytes that it read, or that its
caller reads and writes through the pointer it returns. -/
structure Fetched (α : Type) where
  value : α
  touched : List Addr

variable (p : Proc)

/-- Fetch the int at `addr` from the current process. -/
def fetchint (addr : Addr) : Option (Fetched (BitVec 32)) :=
  if addr ≥ p.sz ∨ addr + 4 > p.sz then none
  else some ⟨(load p.mem addr).setWidth 32, bytes addr 8⟩

/-- Fetch the uint64 at `addr` from the current process. -/
def fetchaddr (addr : Addr) : Option (Fetched Addr) :=
  if addr ≥ p.sz ∨ addr + 8 > p.sz then none
  else some ⟨load p.mem addr, bytes addr 8⟩

/-- The loop of `fetchstr`, from `s` to `ep`: how many bytes are before the nul. -/
def scan : (rounds : Nat) → (s : Addr) → Option Nat
  | 0, _ => none
  | rounds + 1, s => if p.mem s = 0 then some 0 else (scan rounds (s + 1)).map (· + 1)

/-- Fetch the nul-terminated string at `addr` from the current process. The length is returned as an
`int`, and one that comes out negative is a failure for the callers. -/
def fetchstr (addr : Addr) : Option (Fetched Int) :=
  if addr ≥ p.sz then none
  else (scan p (p.sz.toNat - addr.toNat) addr).bind fun length =>
    let value := (BitVec.ofNat 32 length).toInt
    if value < 0 then none else some ⟨value, bytes addr (length + 1)⟩

/-- Fetch the nth word-sized system call argument as a pointer to a block of memory of `size` bytes. -/
def argptr (n : Fin 6) (size : BitVec 32) : Option (Fetched Addr) :=
  let i := p.sf n
  let lo := i.setWidth 32
  if size.toInt < 0 ∨ lo.setWidth 64 ≥ p.sz ∨ (lo + size).setWidth 64 > p.sz then none
  else some ⟨i, bytes i size.toNat⟩

def argstr (n : Fin 6) : Option (Fetched Int) := fetchstr p (p.sf n)

/-- The loop of `sys_exec` over `uargv`: the arguments, if all goes well, and what was read. -/
def argvFrom (uargv : Addr) : (left i : Nat) → Fetched (Option (List Addr))
  | 0, _ => ⟨none, []⟩
  | left + 1, i =>
      (fetchaddr p (uargv + BitVec.ofNat 64 (8 * i))).elim ⟨none, []⟩ fun uarg =>
        if uarg.value = 0 then ⟨some [], uarg.touched⟩
        else
          (fetchstr p uarg.value).elim ⟨none, uarg.touched⟩ fun str =>
            let rest := argvFrom uargv left (i + 1)
            ⟨rest.value.map (uarg.value :: ·), uarg.touched ++ (str.touched ++ rest.touched)⟩

/-- `sys_exec`, until it calls `exec`. `MAXARG` is 32. -/
def sysExec : Fetched (Option (List Addr)) :=
  (argstr p 0).elim ⟨none, []⟩ fun path =>
    let args := argvFrom p (p.sf 1) 32 0
    ⟨args.value, path.touched ++ args.touched⟩

/-- `sys_pipe` where it gets two descriptors: it stores them at `fd`. -/
def sysPipe : Option (Fetched Addr) :=
  (argptr p 0 8).map fun fd => ⟨fd.value, bytes fd.value 4 ++ bytes (fd.value + 4) 4⟩

def Fetched.all {α : Type} (fetched : Option (Fetched α)) : List Addr := fetched.elim [] touched

/-- The functions, with their arguments. -/
inductive Request where
  | fetchint (addr : Addr)
  | fetchaddr (addr : Addr)
  | fetchstr (addr : Addr)
  | argptr (n : Fin 6) (size : BitVec 32)
  | argstr (n : Fin 6)
  | sysExec
  | sysPipe

/-- The bytes read and written where a function succeeds. -/
def touched : Request → List Addr
  | .fetchint addr => Fetched.all (fetchint p addr)
  | .fetchaddr addr => Fetched.all (fetchaddr p addr)
  | .fetchstr addr => Fetched.all (fetchstr p addr)
  | .argptr n size => Fetched.all (argptr p n size)
  | .argstr n => Fetched.all (argstr p n)
  | .sysExec => (sysExec p).touched
  | .sysPipe => Fetched.all (sysPipe p)

/-! ### When the tests are enough -/

def Confined (request : Request) : Prop := ∀ a ∈ touched p request, a < p.sz

/-- The addresses at which `sys_exec` looks for pointers. -/
def slotsFrom (uargv : Addr) : (left i : Nat) → List Addr
  | 0, _ => []
  | left + 1, i =>
      let addr := uargv + BitVec.ofNat 64 (8 * i)
      addr :: (fetchaddr p addr).elim [] fun uarg =>
        if uarg.value = 0 then []
        else (fetchstr p uarg.value).elim [] fun _ => slotsFrom uargv left (i + 1)

def NoWrap (addr : Addr) : Prop := addr < p.sz → addr.toNat + 8 < 18446744073709551616

/-- The test of `argptr` sees the whole range, or refuses it, or it happens to be in memory. -/
def Seen (n : Fin 6) (size : BitVec 32) : Prop :=
  let i := (p.sf n).toNat
  i + size.toNat < 4294967296 ∨ size.toInt ≤ 0 ∨ p.sz.toNat ≤ i % 4294967296 ∨
    p.sz.toNat < (i + size.toNat) % 4294967296 ∨ i + size.toNat ≤ p.sz.toNat

def Enough : Request → Prop
  | .fetchint addr => (addr.toNat + 4 ≤ p.sz.toNat → addr.toNat + 8 ≤ p.sz.toNat) ∧
      (addr < p.sz → addr.toNat + 4 < 18446744073709551616)
  | .fetchaddr addr => NoWrap p addr
  | .fetchstr _ | .argstr _ => True
  | .argptr n size => Seen p n size
  | .sysExec => (argstr p 0).isSome → ∀ addr ∈ slotsFrom p (p.sf 1) 32 0, NoWrap p addr
  | .sysPipe => Seen p 0 8

section Bytes

variable {p} {addr : Addr} {n : Nat}

theorem mem_bytes {a : Addr} : a ∈ bytes addr n ↔ ∃ k < n, addr + BitVec.ofNat 64 k = a := by
  simp [bytes]

theorem forall_bytes_lt (sz : Addr) (hn : n ≤ 18446744073709551616) :
    (∀ a ∈ bytes addr n, a < sz) ↔ n = 0 ∨ addr.toNat + n ≤ sz.toNat := by
  constructor
  · intro hall
    by_cases hzero : n = 0
    · exact Or.inl hzero
    by_cases hwrap : addr.toNat + n ≤ 18446744073709551616
    · have hlast := hall _ (mem_bytes.mpr ⟨n - 1, by omega, rfl⟩)
      right
      bv_omega
    · have hlast := hall _ (mem_bytes.mpr ⟨18446744073709551615 - addr.toNat, by omega, rfl⟩)
      bv_omega
  · intro hin a ha
    obtain ⟨k, hk, rfl⟩ := mem_bytes.mp ha
    bv_omega

theorem bytes_add {m : Nat} :
    bytes addr (m + n) = bytes addr m ++ bytes (addr + BitVec.ofNat 64 m) n := by
  unfold bytes
  rw [List.range_add, List.map_append, List.map_map]
  refine congrArg _ (List.map_congr_left fun k _ => ?_)
  rw [Function.comp_apply, BitVec.ofNat_add, BitVec.add_assoc]

end Bytes

section Confined

variable {p}

theorem not_mem_none {α : Type} {a : Addr} : a ∉ Fetched.all (none : Option (Fetched α)) :=
  List.not_mem_nil

theorem fetchint_confined {addr : Addr} : (∀ a ∈ Fetched.all (fetchint p addr), a < p.sz) ↔
    (addr.toNat + 4 ≤ p.sz.toNat → addr.toNat + 8 ≤ p.sz.toNat) ∧
      (addr < p.sz → addr.toNat + 4 < 18446744073709551616) := by
  unfold fetchint
  by_cases hrefused : addr ≥ p.sz ∨ addr + 4 > p.sz
  · rw [if_pos hrefused]
    refine iff_of_true (fun a ha => absurd ha not_mem_none) ?_
    bv_omega
  · rw [if_neg hrefused, Fetched.all, Option.elim_some, forall_bytes_lt _ (by decide)]
    bv_omega

theorem fetchaddr_confined {addr : Addr} :
    (∀ a ∈ Fetched.all (fetchaddr p addr), a < p.sz) ↔ NoWrap p addr := by
  unfold fetchaddr NoWrap
  by_cases hrefused : addr ≥ p.sz ∨ addr + 8 > p.sz
  · rw [if_pos hrefused]
    refine iff_of_true (fun a ha => absurd ha not_mem_none) ?_
    bv_omega
  · rw [if_neg hrefused, Fetched.all, Option.elim_some, forall_bytes_lt _ (by decide)]
    bv_omega

theorem scan_lt {rounds length : Nat} {s : Addr} (h : scan p rounds s = some length) :
    length < rounds := by
  induction rounds generalizing s length with
  | zero => cases h
  | succ rounds ih =>
      unfold scan at h
      by_cases hnul : p.mem s = 0
      · rw [if_pos hnul] at h
        obtain rfl := Option.some.inj h
        exact Nat.succ_pos rounds
      · rw [if_neg hnul] at h
        obtain ⟨length, hscan, rfl⟩ := Option.map_eq_some_iff.mp h
        exact Nat.succ_lt_succ (ih hscan)

theorem fetchstr_confined {addr : Addr} : ∀ a ∈ Fetched.all (fetchstr p addr), a < p.sz := by
  unfold fetchstr
  by_cases hrefused : addr ≥ p.sz
  · rw [if_pos hrefused]
    exact fun a ha => absurd ha not_mem_none
  rw [if_neg hrefused]
  cases hscan : scan p (p.sz.toNat - addr.toNat) addr with
  | none => exact fun a ha => absurd ha not_mem_none
  | some length =>
      have hlt := scan_lt hscan
      rw [Option.bind_some]
      dsimp only
      by_cases hnegative : (BitVec.ofNat 32 length).toInt < 0
      · rw [if_pos hnegative]
        exact fun a ha => absurd ha not_mem_none
      · rw [if_neg hnegative, Fetched.all, Option.elim_some]
        refine (forall_bytes_lt _ ?_).mpr (Or.inr ?_)
        · bv_omega
        · omega

theorem argptr_confined {n : Fin 6} {size : BitVec 32} :
    (∀ a ∈ Fetched.all (argptr p n size), a < p.sz) ↔ Seen p n size := by
  unfold argptr Seen
  dsimp only
  generalize p.sf n = i
  have hnegative : size.toInt < 0 ↔ 2147483648 ≤ size.toNat := by
    rw [BitVec.toInt_eq_toNat_cond]
    have hlt := size.isLt
    split <;> omega
  have hempty : size.toInt ≤ 0 ↔ size.toNat = 0 ∨ 2147483648 ≤ size.toNat := by
    rw [BitVec.toInt_eq_toNat_cond]
    have hlt := size.isLt
    split <;> omega
  rw [hempty]
  by_cases hrefused : size.toInt < 0 ∨ (i.setWidth 32).setWidth 64 ≥ p.sz ∨
      (i.setWidth 32 + size).setWidth 64 > p.sz
  · rw [if_pos hrefused]
    rw [hnegative] at hrefused
    refine iff_of_true (fun a ha => absurd ha not_mem_none) ?_
    bv_omega
  · rw [if_neg hrefused, Fetched.all, Option.elim_some, forall_bytes_lt _ (by bv_omega)]
    rw [hnegative] at hrefused
    bv_omega

theorem argptr_touched {n : Fin 6} {size : BitVec 32} {fetched : Fetched Addr}
    (h : argptr p n size = some fetched) : fetched.touched = bytes fetched.value size.toNat := by
  unfold argptr at h
  dsimp only at h
  split at h
  · cases h
  · obtain rfl := Option.some.inj h
    rfl

theorem argvFrom_confined {uargv : Addr} {left i : Nat} :
    (∀ a ∈ (argvFrom p uargv left i).touched, a < p.sz) ↔
      ∀ addr ∈ slotsFrom p uargv left i, NoWrap p addr := by
  induction left generalizing i with
  | zero => exact iff_of_true (fun a ha => absurd ha List.not_mem_nil) fun a ha => absurd ha List.not_mem_nil
  | succ left ih =>
      unfold argvFrom slotsFrom
      dsimp only
      generalize uargv + BitVec.ofNat 64 (8 * i) = addr
      have hslot : (∀ a ∈ Fetched.all (fetchaddr p addr), a < p.sz) ↔ NoWrap p addr := fetchaddr_confined
      rw [List.forall_mem_cons, ← hslot]
      cases hfetched : fetchaddr p addr with
      | none =>
          refine iff_of_true (fun a ha => absurd ha List.not_mem_nil) ⟨fun a ha => ?_, fun a ha => ?_⟩
          · exact absurd ha not_mem_none
          · exact absurd ha List.not_mem_nil
      | some uarg =>
          rw [Option.elim_some, Option.elim_some, Fetched.all, Option.elim_some]
          by_cases hend : uarg.value = 0
          · rw [if_pos hend, if_pos hend]
            exact (and_iff_left fun a ha => absurd ha List.not_mem_nil).symm
          rw [if_neg hend, if_neg hend]
          have hstr : ∀ a ∈ Fetched.all (fetchstr p uarg.value), a < p.sz := fetchstr_confined
          cases hfound : fetchstr p uarg.value with
          | none => exact (and_iff_left fun a ha => absurd ha List.not_mem_nil).symm
          | some str =>
              rw [hfound] at hstr
              rw [Option.elim_some, Option.elim_some]
              dsimp only
              rw [List.forall_mem_append, List.forall_mem_append, ih]
              exact and_congr_right fun _ => and_iff_right hstr

theorem sysPipe_confined : (∀ a ∈ Fetched.all (sysPipe p), a < p.sz) ↔ Seen p 0 8 := by
  have hsame : Fetched.all (sysPipe p) = Fetched.all (argptr p 0 8) := by
    unfold sysPipe
    cases hfd : argptr p 0 8 with
    | none => rfl
    | some fd =>
        have htouched : fd.touched = bytes fd.value (4 + 4) := argptr_touched hfd
        rw [Option.map_some, Fetched.all, Fetched.all, Option.elim_some, Option.elim_some, htouched,
          bytes_add]
        rfl
  rw [hsame]
  exact argptr_confined

theorem sysExec_confined : (∀ a ∈ (sysExec p).touched, a < p.sz) ↔ Enough p .sysExec := by
  have hpath : ∀ a ∈ Fetched.all (argstr p 0), a < p.sz := fetchstr_confined
  unfold sysExec Enough
  cases hargstr : argstr p 0 with
  | none => exact iff_of_true (fun a ha => absurd ha List.not_mem_nil) fun h => by cases h
  | some path =>
      rw [hargstr] at hpath
      rw [Option.elim_some, Option.isSome_some, eq_self]
      dsimp only
      rw [List.forall_mem_append, argvFrom_confined, forall_true_left]
      exact and_iff_right hpath

/-- **When arguments are confined to user memory.** For every process and every function, with any
arguments. -/
theorem confined_iff (p : Proc) (request : Request) : Confined p request ↔ Enough p request := by
  cases request with
  | fetchint addr => exact fetchint_confined
  | fetchaddr addr => exact fetchaddr_confined
  | fetchstr addr => exact iff_of_true fetchstr_confined trivial
  | argptr n size => exact argptr_confined
  | argstr n => exact iff_of_true fetchstr_confined trivial
  | sysExec => exact sysExec_confined
  | sysPipe => exact sysPipe_confined

/-- `sys_pipe` with a pointer beyond 4 GB, in a process of one page. -/
def beyond : Proc := ⟨4096, fun _ => 0, fun _ => 4294967312⟩

theorem not_confined_beyond : ¬∀ p request, Confined p request := by
  intro h
  have hpipe : 4294967312 < beyond.sz := h beyond .sysPipe 4294967312 (by decide)
  exact absurd hpipe (by decide)

end Confined

end Xv6.Args
