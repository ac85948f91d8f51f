import Mathlib.Data.BitVec
import Mathlib.Logic.Function.Basic
import Mathlib.Tactic.Common
import Xv6.Layout

/-!
# System call arguments in the legacy kernels

What the legacy `syscall.c` tests before it hands out a pointer to user memory, and which bytes the system calls then
read and write through it. A size is signed in the tests, in pipes and in the console, and unsigned in `readi`: that
makes a difference to `sys_read` only.
-/

namespace Xv6.Args.Legacy

abbrev Addr := BitVec 32

abbrev Byte := BitVec 8

def userbound : Nat := 0x40000000

/-- What of an inode `readi` and `writei` look at. A device may have no routine. -/
inductive Inode where
  | device (routine : Bool)
  | regular (size : Addr)

/-- An open file. -/
inductive File where
  | pipe (readable writable : Bool)
  | inode (readable writable : Bool) (off : Addr) (ip : Inode)

/-- What of a process the functions look at. -/
structure Proc where
  sz : Addr
  /-- `allocuvm` refuses a larger size. -/
  sz_lt : sz.toNat < userbound
  mem : Addr → Byte
  /-- `tf->sp`. -/
  sp : Addr
  /-- `NOFILE` is 16. -/
  ofile : Fin 16 → Option File

/-! ### The code -/

/-- The addresses of `n` bytes. -/
def bytes (addr : Addr) (n : Nat) : List Addr := (List.range n).map fun k => addr + BitVec.ofNat 32 k

/-- `*(int*)(addr)`. -/
def load (mem : Addr → Byte) (addr : Addr) : Addr :=
  (bytes addr 4).foldr (fun a word => word <<< 8 ||| (mem a).setWidth 32) 0

structure Fetched (α : Type) where
  value : Option α
  touched : List Addr

def Fetched.andThen {α β : Type} (first : Fetched α) (next : α → Fetched β) : Fetched β :=
  first.value.elim ⟨none, first.touched⟩ fun value => ⟨(next value).value, first.touched ++ (next value).touched⟩

variable (p : Proc)

/-- Fetch the int at `addr` from the current process. -/
def fetchint (addr : Addr) : Fetched Addr :=
  if addr ≥ p.sz ∨ addr + 4 > p.sz then ⟨none, []⟩ else ⟨some (load p.mem addr), bytes addr 4⟩

/-- The loop of `fetchstr`, from `s` to `ep`: how many bytes are before the nul. -/
def scan : (rounds : Nat) → (s : Addr) → Option Nat
  | 0, _ => none
  | rounds + 1, s => if p.mem s = 0 then some 0 else (scan rounds (s + 1)).map (· + 1)

/-- Fetch the nul-terminated string at `addr` from the current process. Returns length of string, not including nul. -/
def fetchstr (addr : Addr) : Fetched Nat :=
  if addr ≥ p.sz then ⟨none, []⟩
  else
    (scan p (p.sz.toNat - addr.toNat) addr).elim ⟨none, bytes addr (p.sz.toNat - addr.toNat)⟩ fun length =>
      ⟨some length, bytes addr (length + 1)⟩

def argint (n : Nat) : Fetched Addr := fetchint p (p.sp + BitVec.ofNat 32 (4 * n))

/-- Fetch the nth word-sized system call argument as a pointer to a block of memory of `size` bytes. Check that the
pointer lies within the process address space. -/
def argptr (n : Nat) (size : Addr) : Fetched Addr :=
  (argint p n).andThen fun i => if i ≥ p.sz ∨ i + size > p.sz then ⟨none, []⟩ else ⟨some i, []⟩

def argfd (n : Nat) : Fetched File :=
  (argint p n).andThen fun fd => ⟨if h : fd.toNat < 16 then p.ofile ⟨fd.toNat, h⟩ else none, []⟩

/-- A loop over an `int` that counts the bytes: what it may read or write. -/
def counted (addr : Addr) (n : Addr) : List Addr := bytes addr n.toInt.toNat

def readi (ip : Inode) (dst off n : Addr) : List Addr :=
  match ip with
  | .device routine => if routine then counted dst n else []
  | .regular size =>
      if off > size ∨ off + n < off then []
      else bytes dst (if off + n > size then size - off else n).toNat

def fileread (f : File) (addr n : Addr) : List Addr :=
  match f with
  | .pipe readable _ => if readable then counted addr n else []
  | .inode readable _ off ip => if readable then readi ip addr off n else []

/-- `MAXFILE*BSIZE`. -/
def maxSize : Nat := (ndirect + 512 / 4) * 512

def writei (ip : Inode) (src off n : Addr) : Fetched Inode :=
  match ip with
  | .device routine => if routine then ⟨some ip, counted src n⟩ else ⟨none, []⟩
  | .regular size =>
      if off > size ∨ off + n < off then ⟨none, []⟩
      else if (off + n).toNat > maxSize then ⟨none, []⟩
      else ⟨some (.regular (if n.toNat > 0 ∧ off + n > size then off + n else size)), bytes src n.toNat⟩

/-- The most that `filewrite` writes in one transaction. `LOGSIZE` is 10. -/
def maxWrite : Nat := (10 - 1 - 1 - 2) / 2 * 512

/-- The loop of `filewrite`, with `left` bytes left. -/
def writeFrom (addr : Addr) (n : Nat) : (rounds i : Nat) → (off : Addr) → (ip : Inode) → List Addr
  | 0, _, _, _ => []
  | rounds + 1, i, off, ip =>
      if i < n then
        let n1 := BitVec.ofNat 32 (min (n - i) maxWrite)
        let written := writei ip (addr + BitVec.ofNat 32 i) off n1
        written.touched ++ written.value.elim [] fun ip => writeFrom addr n rounds (i + n1.toNat) (off + n1) ip
      else []

def filewrite (f : File) (addr n : Addr) : List Addr :=
  match f with
  | .pipe _ writable => if writable then counted addr n else []
  | .inode _ writable off ip => if writable then writeFrom addr n.toInt.toNat n.toInt.toNat 0 off ip else []

/-- `filestat`. Four bytes of a `struct stat` are padding. -/
def filestat (f : File) (st : Addr) : List Addr :=
  match f with
  | .pipe _ _ => []
  | .inode .. => bytes st 12 ++ bytes (st + 16) 8

def sysRead : Fetched Unit :=
  (argfd p 0).andThen fun f => (argint p 2).andThen fun n => (argptr p 1 n).andThen fun addr =>
    ⟨some (), fileread f addr n⟩

def sysWrite : Fetched Unit :=
  (argfd p 0).andThen fun f => (argint p 2).andThen fun n => (argptr p 1 n).andThen fun addr =>
    ⟨some (), filewrite f addr n⟩

def sysFstat : Fetched Unit :=
  (argfd p 0).andThen fun f => (argptr p 1 24).andThen fun st => ⟨some (), filestat f st⟩

/-- `sys_pipe` where it gets two descriptors: it stores them at `fd`. -/
def sysPipe : Fetched Unit :=
  (argptr p 0 8).andThen fun fd => ⟨some (), bytes fd 4 ++ bytes (fd + 4) 4⟩

/-- The functions, with their arguments. -/
inductive Request where
  | fetchint (addr : Addr)
  | fetchstr (addr : Addr)
  | read
  | write
  | fstat
  | pipe

/-- The bytes of the process that are read and written. -/
def touched : Request → List Addr
  | .fetchint addr => (fetchint p addr).touched
  | .fetchstr addr => (fetchstr p addr).touched
  | .read => (sysRead p).touched
  | .write => (sysWrite p).touched
  | .fstat => (sysFstat p).touched
  | .pipe => (sysPipe p).touched

def Confined (request : Request) : Prop := ∀ a ∈ touched p request, a < p.sz

/-- A read of a regular file with a negative size: `readi` refuses the range of the file, or what the file has from
there on fits in memory. -/
def RestFits (size addr off n : Addr) : Prop :=
  off > size ∨ off + n < off ∨ addr.toNat + min n.toNat (size.toNat - off.toNat) ≤ p.sz.toNat

/-- Where `sys_read` gets its arguments and the size is negative, what is read fits. The other calls ask for nothing. -/
def Enough : Request → Prop
  | .read => ∀ f n addr, (argfd p 0).value = some f → (argint p 2).value = some n → (argptr p 1 n).value = some addr →
      n.toInt < 0 → ∀ writable off size, f = .inode true writable off (.regular size) → RestFits p size addr off n
  | _ => True

/-! ### When the tests are enough -/

section Bytes

variable {p} {addr : Addr} {n : Nat}

theorem mem_bytes {a : Addr} : a ∈ bytes addr n ↔ ∃ k < n, addr + BitVec.ofNat 32 k = a := by
  simp [bytes]

theorem forall_bytes_lt (sz : Addr) (hn : n ≤ 4294967296) :
    (∀ a ∈ bytes addr n, a < sz) ↔ n = 0 ∨ addr.toNat + n ≤ sz.toNat := by
  constructor
  · intro hall
    by_cases hzero : n = 0
    · exact Or.inl hzero
    by_cases hwrap : addr.toNat + n ≤ 4294967296
    · have hlast := hall _ (mem_bytes.mpr ⟨n - 1, by omega, rfl⟩)
      right
      bv_omega
    · have hlast := hall _ (mem_bytes.mpr ⟨4294967295 - addr.toNat, by omega, rfl⟩)
      bv_omega
  · intro hin a ha
    obtain ⟨k, hk, rfl⟩ := mem_bytes.mp ha
    bv_omega

theorem bytes_within {m : Nat} {a sz : Addr} (ha : a ∈ bytes (addr + BitVec.ofNat 32 m) n)
    (hin : addr.toNat + (m + n) ≤ sz.toNat) : a < sz := by
  obtain ⟨k, hk, rfl⟩ := mem_bytes.mp ha
  bv_omega

theorem forall_andThen {α β : Type} {first : Fetched α} {next : α → Fetched β} {sz : Addr} :
    (∀ a ∈ (first.andThen next).touched, a < sz) ↔
      (∀ a ∈ first.touched, a < sz) ∧ ∀ value, first.value = some value → ∀ a ∈ (next value).touched, a < sz := by
  unfold Fetched.andThen
  cases hvalue : first.value with
  | none =>
      constructor
      · exact fun hall => ⟨hall, fun _ hsome => by cases hsome⟩
      · exact fun hall => hall.1
  | some value =>
      rw [Option.elim_some]
      constructor
      · intro hall
        refine ⟨fun a ha => hall a (List.mem_append_left _ ha), ?_⟩
        rintro _ hsome a ha
        obtain rfl := Option.some.inj hsome
        exact hall a (List.mem_append_right _ ha)
      · rintro ⟨hfirst, hnext⟩ a ha
        rcases List.mem_append.mp ha with ha | ha
        · exact hfirst a ha
        · exact hnext value rfl a ha

end Bytes

section Confined

variable {p}

theorem sz_lt_top : p.sz.toNat < 1073741824 := p.sz_lt

theorem fetchint_confined {addr : Addr} : ∀ a ∈ (fetchint p addr).touched, a < p.sz := by
  have hsz := @sz_lt_top p
  unfold fetchint
  split
  · exact fun a ha => absurd ha List.not_mem_nil
  · next hin =>
    refine (forall_bytes_lt _ (by decide)).mpr (Or.inr ?_)
    bv_omega

theorem scan_lt {rounds length : Nat} {s : Addr} (hscan : scan p rounds s = some length) : length < rounds := by
  induction rounds generalizing s length with
  | zero => cases hscan
  | succ rounds ih =>
      unfold scan at hscan
      split at hscan
      · obtain rfl := Option.some.inj hscan
        exact Nat.succ_pos rounds
      · obtain ⟨rest, hrest, rfl⟩ := Option.map_eq_some_iff.mp hscan
        exact Nat.succ_lt_succ (ih hrest)

theorem fetchstr_confined {addr : Addr} : ∀ a ∈ (fetchstr p addr).touched, a < p.sz := by
  have hsz := @sz_lt_top p
  unfold fetchstr
  split
  · exact fun a ha => absurd ha List.not_mem_nil
  · next hin =>
    have hlt : addr.toNat < p.sz.toNat := by bv_omega
    cases hscan : scan p (p.sz.toNat - addr.toNat) addr with
    | none => exact (forall_bytes_lt _ (by omega)).mpr (Or.inr (by omega))
    | some length =>
        have hlength := scan_lt hscan
        exact (forall_bytes_lt _ (by omega)).mpr (Or.inr (by omega))

theorem argint_confined (n : Nat) : ∀ a ∈ (argint p n).touched, a < p.sz := fetchint_confined

theorem argptr_confined (n : Nat) (size : Addr) : ∀ a ∈ (argptr p n size).touched, a < p.sz := by
  refine forall_andThen.mpr ⟨argint_confined n, ?_⟩
  intro i _
  split <;> exact fun a ha => absurd ha List.not_mem_nil

theorem argfd_confined (n : Nat) : ∀ a ∈ (argfd p n).touched, a < p.sz :=
  forall_andThen.mpr ⟨argint_confined n, fun _ _ _ ha => absurd ha List.not_mem_nil⟩

theorem argptr_eq_some {n : Nat} {size addr : Addr} (hptr : (argptr p n size).value = some addr) :
    addr < p.sz ∧ addr + size ≤ p.sz := by
  unfold argptr Fetched.andThen at hptr
  cases hvalue : (argint p n).value with
  | none =>
      rw [hvalue] at hptr
      cases hptr
  | some i =>
      rw [hvalue, Option.elim_some] at hptr
      dsimp only at hptr
      split at hptr
      · cases hptr
      · next hin =>
        obtain rfl := Option.some.inj hptr
        bv_omega

theorem counted_confined {addr n : Addr} (hlt : addr < p.sz) (hle : addr + n ≤ p.sz) :
    ∀ a ∈ counted addr n, a < p.sz := by
  have hsz := @sz_lt_top p
  unfold counted
  have hn := n.isLt
  refine (forall_bytes_lt _ (by rw [BitVec.toInt_eq_toNat_cond]; split <;> omega)).mpr ?_
  rw [BitVec.toInt_eq_toNat_cond]
  split
  · bv_omega
  · left
    omega

theorem readi_confined {ip : Inode} {addr off n : Addr} (hlt : addr < p.sz) (hle : addr + n ≤ p.sz) :
    (∀ a ∈ readi ip addr off n, a < p.sz) ↔
      (n.toInt < 0 → ∀ size, ip = .regular size → RestFits p size addr off n) := by
  have hsz := @sz_lt_top p
  cases ip with
  | device routine =>
      refine iff_of_true ?_ fun _ size hip => by cases hip
      unfold readi
      dsimp only
      split
      · exact counted_confined hlt hle
      · exact fun a ha => absurd ha List.not_mem_nil
  | regular size =>
      unfold readi
      dsimp only
      have hneg : n.toInt < 0 ↔ 2147483648 ≤ n.toNat := by
        have hn := n.isLt
        rw [BitVec.toInt_eq_toNat_cond]
        split <;> omega
      by_cases hrefused : off > size ∨ off + n < off
      · rw [if_pos hrefused]
        refine iff_of_true (fun a ha => absurd ha List.not_mem_nil) ?_
        rintro - _ hip
        obtain rfl := Inode.regular.inj hip
        unfold RestFits
        rcases hrefused with hoff | hwrap
        · exact Or.inl hoff
        · exact Or.inr (Or.inl hwrap)
      · have hcount : (if off + n > size then size - off else n).toNat = min n.toNat (size.toNat - off.toNat) := by
          split <;> bv_omega
        rw [if_neg hrefused, forall_bytes_lt _ (by rw [hcount]; omega), hcount, hneg]
        constructor
        · rintro hin - _ hip
          obtain rfl := Inode.regular.inj hip
          unfold RestFits
          bv_omega
        · intro hfits
          by_cases hnonneg : 2147483648 ≤ n.toNat
          · have hrest := hfits hnonneg size rfl
            unfold RestFits at hrest
            rcases hrest with hoff | hwrap | hin
            · exact absurd (Or.inl hoff) hrefused
            · exact absurd (Or.inr hwrap) hrefused
            · exact Or.inr hin
          · bv_omega

theorem writei_touched {ip : Inode} {src off : Addr} {n : Nat} (hn : n < 2147483648) :
    ∀ a ∈ (writei ip src off (BitVec.ofNat 32 n)).touched, a ∈ bytes src n := by
  have hnat : (BitVec.ofNat 32 n).toNat = n := by
    rw [BitVec.toNat_ofNat]
    omega
  have hint : (BitVec.ofNat 32 n).toInt.toNat = n := by
    rw [BitVec.toInt_eq_toNat_cond, hnat]
    split <;> omega
  intro a ha
  unfold writei counted at ha
  cases ip with
  | device routine =>
      dsimp only at ha
      split at ha
      · rwa [hint] at ha
      · exact absurd ha List.not_mem_nil
  | regular size =>
      dsimp only at ha
      split at ha
      · exact absurd ha List.not_mem_nil
      · split at ha
        · exact absurd ha List.not_mem_nil
        · rwa [hnat] at ha

theorem writeFrom_confined {addr : Addr} {n rounds i : Nat} {off : Addr} {ip : Inode}
    (hin : addr.toNat + n ≤ p.sz.toNat) : ∀ a ∈ writeFrom addr n rounds i off ip, a < p.sz := by
  have hsz := @sz_lt_top p
  induction rounds generalizing i off ip with
  | zero => exact fun a ha => absurd ha List.not_mem_nil
  | succ rounds ih =>
      unfold writeFrom
      split
      · next hi =>
        intro a ha
        dsimp only at ha
        rcases List.mem_append.mp ha with ha | ha
        · exact bytes_within (writei_touched (by omega) a ha) (by omega)
        · cases hwritten : (writei ip (addr + BitVec.ofNat 32 i) off
              (BitVec.ofNat 32 (min (n - i) maxWrite))).value with
          | none =>
              rw [hwritten] at ha
              exact absurd ha List.not_mem_nil
          | some ip' =>
              rw [hwritten] at ha
              exact ih a ha
      · exact fun a ha => absurd ha List.not_mem_nil

theorem filewrite_confined {f : File} {addr n : Addr} (hlt : addr < p.sz) (hle : addr + n ≤ p.sz) :
    ∀ a ∈ filewrite f addr n, a < p.sz := by
  have hsz := @sz_lt_top p
  unfold filewrite
  cases f with
  | pipe readable writable =>
      dsimp only
      split
      · exact counted_confined hlt hle
      · exact fun a ha => absurd ha List.not_mem_nil
  | inode readable writable off ip =>
      dsimp only
      split
      · by_cases hpos : 0 < n.toInt
        · refine writeFrom_confined ?_
          rw [BitVec.toInt_eq_toNat_cond] at hpos ⊢
          split at hpos
          · next hsmall =>
            rw [if_pos hsmall]
            bv_omega
          · omega
        · have hnone : n.toInt.toNat = 0 := by omega
          rw [hnone]
          exact fun a ha => absurd ha List.not_mem_nil
      · exact fun a ha => absurd ha List.not_mem_nil

theorem fileread_confined {f : File} {addr n : Addr} (hlt : addr < p.sz) (hle : addr + n ≤ p.sz) :
    (∀ a ∈ fileread f addr n, a < p.sz) ↔ (n.toInt < 0 →
      ∀ writable off size, f = .inode true writable off (.regular size) → RestFits p size addr off n) := by
  unfold fileread
  cases f with
  | pipe readable writable =>
      refine iff_of_true ?_ fun _ _ _ _ hf => by cases hf
      dsimp only
      split
      · exact counted_confined hlt hle
      · exact fun a ha => absurd ha List.not_mem_nil
  | inode readable writable off ip =>
      dsimp only
      split
      · next hreadable =>
        rw [readi_confined hlt hle]
        constructor
        · rintro hfits hneg _ _ size hf
          obtain ⟨-, -, rfl, rfl⟩ := File.inode.inj hf
          exact hfits hneg size rfl
        · rintro hfits hneg size rfl
          exact hfits hneg writable off size (by rw [hreadable])
      · next hreadable =>
        refine iff_of_true (fun a ha => absurd ha List.not_mem_nil) ?_
        rintro - _ _ _ hf
        exact absurd (File.inode.inj hf).1 hreadable

theorem read_confined : Confined p .read ↔ ∀ f n addr, (argfd p 0).value = some f → (argint p 2).value = some n →
    (argptr p 1 n).value = some addr → ∀ a ∈ fileread f addr n, a < p.sz := by
  unfold Confined touched sysRead
  simp only [forall_andThen]
  constructor
  · rintro ⟨-, hall⟩ f n addr hf hn haddr
    exact ((hall f hf).2 n hn).2 addr haddr
  · intro hall
    refine ⟨argfd_confined 0, ?_⟩
    intro f hf
    refine ⟨argint_confined 2, ?_⟩
    intro n hn
    exact ⟨argptr_confined 1 n, fun addr haddr => hall f n addr hf hn haddr⟩

theorem filestat_confined {f : File} {st : Addr} (hlt : st < p.sz) (hle : st + 24 ≤ p.sz) :
    ∀ a ∈ filestat f st, a < p.sz := by
  have hsz := @sz_lt_top p
  unfold filestat
  cases f with
  | pipe => exact fun a ha => absurd ha List.not_mem_nil
  | inode =>
      intro a ha
      rcases List.mem_append.mp ha with ha | ha
      · exact (forall_bytes_lt p.sz (by decide)).mpr (Or.inr (by bv_omega)) a ha
      · exact (forall_bytes_lt p.sz (by decide)).mpr (Or.inr (by bv_omega)) a ha

end Confined

/-- **User buffers lie in user memory**, unless a file is read with a negative size. -/
theorem confined_iff_restFits (request : Request) : Confined p request ↔ Enough p request := by
  have hsz := @sz_lt_top p
  cases request with
  | fetchint addr => exact iff_of_true fetchint_confined trivial
  | fetchstr addr => exact iff_of_true fetchstr_confined trivial
  | read =>
      unfold Enough
      rw [read_confined]
      constructor
      · intro hall f n addr hf hn haddr
        obtain ⟨hlt, hle⟩ := argptr_eq_some haddr
        exact (fileread_confined hlt hle).mp (hall f n addr hf hn haddr)
      · intro hall f n addr hf hn haddr
        obtain ⟨hlt, hle⟩ := argptr_eq_some haddr
        exact (fileread_confined hlt hle).mpr (hall f n addr hf hn haddr)
  | write =>
      refine iff_of_true ?_ trivial
      unfold Confined touched sysWrite
      refine forall_andThen.mpr ⟨argfd_confined 0, ?_⟩
      intro f _
      refine forall_andThen.mpr ⟨argint_confined 2, ?_⟩
      intro n _
      refine forall_andThen.mpr ⟨argptr_confined 1 n, ?_⟩
      intro addr haddr
      obtain ⟨hlt, hle⟩ := argptr_eq_some haddr
      exact filewrite_confined hlt hle
  | fstat =>
      refine iff_of_true ?_ trivial
      unfold Confined touched sysFstat
      refine forall_andThen.mpr ⟨argfd_confined 0, ?_⟩
      intro f _
      refine forall_andThen.mpr ⟨argptr_confined 1 24, ?_⟩
      intro st hst
      obtain ⟨hlt, hle⟩ := argptr_eq_some hst
      exact filestat_confined hlt hle
  | pipe =>
      refine iff_of_true ?_ trivial
      unfold Confined touched sysPipe
      refine forall_andThen.mpr ⟨argptr_confined 0 8, ?_⟩
      intro fd hfd a ha
      obtain ⟨hlt, hle⟩ := argptr_eq_some hfd
      rcases List.mem_append.mp ha with ha | ha
      · exact (forall_bytes_lt p.sz (by decide)).mpr (Or.inr (by bv_omega)) a ha
      · exact (forall_bytes_lt p.sz (by decide)).mpr (Or.inr (by bv_omega)) a ha

def reader : Proc where
  sz := 4096
  sz_lt := Nat.lt_of_sub_eq_succ rfl
  mem a := if a = 4 then 0xFC else if a = 5 then 0xF else if 8 ≤ a ∧ a < 12 then 0xFF else 0
  sp := 0
  ofile i := if i = 0 then some (.inode true false 0 (.regular 512)) else none

/-- It reads 512 bytes into the last four that it has. -/
theorem read_beyond_size : ¬ ∀ (p : Proc) (request : Request), Confined p request := by
  intro hall
  have hread := read_confined.mp (hall reader .read) _ 0xFFFFFFFF 0xFFC rfl rfl rfl
  have hfits := (fileread_confined (by decide) (by decide)).mp hread (by decide) false 0 512 rfl
  unfold RestFits at hfits
  exact absurd hfits (by decide)

end Xv6.Args.Legacy
