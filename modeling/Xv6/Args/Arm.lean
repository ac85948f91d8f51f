import Xv6.Args.Legacy

/-!
# System call entry of the arm fork

`syscall.c` and `sysfile.c` of `forks/arm`. The number and the arguments of a system call are registers, and what is
done with memory is what the legacy kernels do. The number is tested against the count of the table, which lets the
word after it through.
-/

namespace Xv6.Args.Legacy.Arm

/-- What of a process the functions look at. Arguments are not on its stack; `UADDR_SZ` is below the bound for its
size. -/
structure Proc extends Legacy.Proc where
  /-- `tf->r0` to `tf->r4`. -/
  reg : Fin 5 → Addr

/-- The functions of the table. -/
inductive Sys where
  | fork | exit | wait | pipe | read | kill | exec | fstat | chdir | dup | getpid | sbrk | sleep | uptime | «open» | write
  | mknod | unlink | link | mkdir | close
  deriving DecidableEq

/-- The table `syscalls`, from entry 0 on. -/
def syscalls : List (Option Sys) :=
  [none, some .fork, some .exit, some .wait, some .pipe, some .read, some .kill, some .exec, some .fstat, some .chdir,
    some .dup, some .getpid, some .sbrk, some .sleep, some .uptime, some .open, some .write, some .mknod, some .unlink,
    some .link, some .mkdir, some .close]

/-- What `syscall` calls: a function of the table, or what the word after it points to. -/
inductive Target where
  | stored (call : Sys)
  | beyond (word : Addr)
  deriving DecidableEq

/-- `syscalls[num]`, where `after` is the word after the table. -/
def entry (after : Addr) (num : Nat) : Option Target :=
  match syscalls[num]? with
  | some call => call.map .stored
  | none => if after = 0 then none else some (.beyond after)

/-- `SYS_read`. -/
def numRead : Addr := 5

/-- `SYS_exec`. -/
def numExec : Addr := 7

/-- What `syscall` has called, and `tf->r0` then. -/
structure Outcome where
  called : Option Target
  r0 : Addr

/-- `syscall`, where `result` is what a function returns. -/
def syscall (after : Addr) (result : Target → Addr) (r0 : Addr) : Outcome :=
  let called := if r0.toInt > 0 ∧ r0.toNat ≤ syscalls.length then entry after r0.toNat else none
  match called with
  | some target => ⟨called, if r0 ≠ numExec then result target else r0⟩
  | none => ⟨called, -1⟩

/-! ### Arguments -/

section Code

variable (p : Proc)

def argint (n : Nat) : Fetched Addr := ⟨if h : n + 1 < 5 then some (p.reg ⟨n + 1, h⟩) else none, []⟩

/-- Fetch the nth word-sized system call argument as a pointer to a block of memory of `size` bytes. -/
def argptr (n : Nat) (size : Addr) : Fetched Addr :=
  (argint p n).andThen fun i => if i ≥ p.sz ∨ i + size > p.sz then ⟨none, []⟩ else ⟨some i, []⟩

def argstr (n : Nat) : Fetched (Addr × Nat) :=
  (argint p n).andThen fun addr => (fetchstr p.toProc addr).andThen fun length => ⟨some (addr, length), []⟩

def argfd (n : Nat) : Fetched File :=
  (argint p n).andThen fun fd => ⟨if h : fd.toNat < 16 then p.ofile ⟨fd.toNat, h⟩ else none, []⟩

def maxArg : Nat := 32

/-- The loop of `sys_exec`: the strings of `argv` from entry `i` on. -/
def argvFrom (uargv : Addr) : (rounds i : Nat) → Fetched (List (Addr × Nat))
  | 0, _ => ⟨none, []⟩
  | rounds + 1, i =>
      (fetchint p.toProc (uargv + BitVec.ofNat 32 (4 * i))).andThen fun uarg =>
        if uarg = 0 then ⟨some [], []⟩
        else
          (fetchstr p.toProc uarg).andThen fun length =>
            (argvFrom uargv rounds (i + 1)).andThen fun rest => ⟨some ((uarg, length) :: rest), []⟩

/-- What `exec` reads of the strings it is given. -/
def exec (strings : List (Addr × Nat)) : List Addr := strings.flatMap fun s => bytes s.1 (s.2 + 1)

/-! ### System calls -/

def sysRead : Fetched Unit :=
  (argfd p 0).andThen fun f => (argint p 2).andThen fun n => (argptr p 1 n).andThen fun addr =>
    ⟨some (), fileread f addr n⟩

def sysWrite : Fetched Unit :=
  (argfd p 0).andThen fun f => (argint p 2).andThen fun n => (argptr p 1 n).andThen fun addr =>
    ⟨some (), filewrite f addr n⟩

def sysFstat : Fetched Unit :=
  (argfd p 0).andThen fun f => (argptr p 1 24).andThen fun st => ⟨some (), filestat f st⟩

/-- `sys_pipe` where it gets two descriptors: it stores them at `fd`. -/
def sysPipe : Fetched Unit :=
  (argptr p 0 8).andThen fun fd => ⟨some (), bytes fd 4 ++ bytes (fd + 4) 4⟩

def sysExec : Fetched Unit :=
  (argstr p 0).andThen fun path => (argint p 1).andThen fun uargv => (argvFrom p uargv maxArg 0).andThen fun argv =>
    ⟨some (), exec (path :: argv)⟩

def sysLink : Fetched Unit :=
  (argstr p 0).andThen fun old => (argstr p 1).andThen fun new => ⟨some (), exec [old, new]⟩

def sysPath : Fetched Unit := (argstr p 0).andThen fun path => ⟨some (), exec [path]⟩

/-- What a function of the table reads and writes of the memory of the process. -/
def sys : Sys → Fetched Unit
  | .read => sysRead p
  | .write => sysWrite p
  | .fstat => sysFstat p
  | .pipe => sysPipe p
  | .exec => sysExec p
  | .link => sysLink p
  | .chdir | .open | .mknod | .unlink | .mkdir => sysPath p
  | .fork | .exit | .wait | .kill | .dup | .getpid | .sbrk | .sleep | .uptime | .close => ⟨some (), []⟩

/-- Only functions of the table are called, all that they read and write is memory of the process, and otherwise the
result is -1. -/
structure Admits (after : Addr) (result : Target → Addr) : Prop where
  stored : ∀ target, (syscall after result (p.reg 0)).called = some target →
    ∃ call, target = .stored call ∧ some call ∈ syscalls
  refused : (syscall after result (p.reg 0)).called = none → (syscall after result (p.reg 0)).r0 = -1
  confined : ∀ call, (syscall after result (p.reg 0)).called = some (.stored call) →
    ∀ a ∈ (sys p call).touched, a < p.sz

/-- Where `sys_read` gets its arguments and the size is negative, what is read fits. -/
def Enough : Prop :=
  ∀ f n addr, (argfd p 0).value = some f → (argint p 2).value = some n → (argptr p 1 n).value = some addr →
    n.toInt < 0 → ∀ writable off size, f = .inode true writable off (.regular size) →
      RestFits p.toProc size addr off n

end Code

/-! ### Numbers -/

theorem entry_length (after : Addr) :
    entry after syscalls.length = if after = 0 then none else some (.beyond after) := rfl

theorem entry_of_lt {after : Addr} {num : Nat} (hnum : num < syscalls.length) {target : Target}
    (h : entry after num = some target) : ∃ call, target = .stored call ∧ some call ∈ syscalls := by
  unfold entry at h
  rw [List.getElem?_eq_getElem hnum] at h
  obtain ⟨call, hcall, rfl⟩ := Option.map_eq_some_iff.mp h
  exact ⟨call, rfl, hcall ▸ List.getElem_mem hnum⟩

theorem syscall_called (after : Addr) (result : Target → Addr) (r0 : Addr) :
    (syscall after result r0).called =
      if r0.toInt > 0 ∧ r0.toNat ≤ syscalls.length then entry after r0.toNat else none := by
  unfold syscall
  dsimp only
  split <;> rfl

theorem syscall_refused {after : Addr} {result : Target → Addr} {r0 : Addr}
    (h : (syscall after result r0).called = none) : (syscall after result r0).r0 = -1 := by
  rw [syscall_called] at h
  unfold syscall
  dsimp only
  rw [h]

theorem stored_iff (after : Addr) (result : Target → Addr) (r0 : Addr) :
    (∀ target, (syscall after result r0).called = some target →
        ∃ call, target = .stored call ∧ some call ∈ syscalls) ↔
      r0 ≠ 22 ∨ after = 0 := by
  have hlength : syscalls.length = 22 := rfl
  constructor
  · intro hall
    by_contra hnot
    rw [not_or, not_not] at hnot
    obtain ⟨rfl, hafter⟩ := hnot
    obtain ⟨call, hcall, -⟩ := hall (.beyond after) (by
      rw [syscall_called, if_pos (by decide)]
      exact (entry_length after).trans (if_neg hafter))
    cases hcall
  · intro hcond target htarget
    rw [syscall_called] at htarget
    split at htarget
    · next hnum =>
      rcases Nat.lt_or_ge r0.toNat syscalls.length with hlt | hge
      · exact entry_of_lt hlt htarget
      · have heq : r0 = 22 := by bv_omega
        rw [heq] at htarget
        rcases hcond with hne | hzero
        · exact absurd heq hne
        · rw [show (22 : Addr).toNat = syscalls.length from rfl, entry_length, if_pos hzero] at htarget
          cases htarget
    · cases htarget

theorem called_read_iff (after : Addr) (result : Target → Addr) (r0 : Addr) :
    (syscall after result r0).called = some (.stored .read) ↔ r0 = numRead := by
  have hlength : syscalls.length = 22 := rfl
  constructor
  · intro h
    rw [syscall_called] at h
    split at h
    · next hnum =>
      rcases Nat.lt_or_ge r0.toNat syscalls.length with hlt | hge
      · unfold entry at h
        rw [List.getElem?_eq_getElem hlt] at h
        obtain ⟨call, hcall, hread⟩ := Option.map_eq_some_iff.mp h
        obtain rfl := Target.stored.inj hread
        have hplace : ∀ k (hk : k < syscalls.length), syscalls[k] = some .read → k = 5 := by decide
        have hnumber := hplace _ hlt hcall
        unfold numRead
        bv_omega
      · unfold entry at h
        rw [List.getElem?_eq_none hge] at h
        dsimp only at h
        split at h
        · cases h
        · cases h
    · cases h
  · rintro rfl
    rw [syscall_called, if_pos (by decide)]
    rfl

/-! ### Buffers -/

section Confined

variable {p : Proc}

theorem argint_confined (n : Nat) : ∀ a ∈ (argint p n).touched, a < p.sz :=
  fun _ ha => absurd ha List.not_mem_nil

theorem argptr_confined (n : Nat) (size : Addr) : ∀ a ∈ (argptr p n size).touched, a < p.sz := by
  refine forall_andThen.mpr ⟨argint_confined n, ?_⟩
  intro i _
  split <;> exact fun a ha => absurd ha List.not_mem_nil

theorem argfd_confined (n : Nat) : ∀ a ∈ (argfd p n).touched, a < p.sz :=
  forall_andThen.mpr ⟨argint_confined n, fun _ _ _ ha => absurd ha List.not_mem_nil⟩

theorem argptr_eq_some {n : Nat} {size addr : Addr} (hptr : (argptr p n size).value = some addr) :
    addr < p.sz ∧ addr + size ≤ p.sz := by
  unfold argptr Fetched.andThen at hptr
  cases hvalue : (argint p n).value with
  | none =>
      rw [hvalue] at hptr
      cases hptr
  | some i =>
      rw [hvalue, Option.elim_some] at hptr
      dsimp only at hptr
      split at hptr
      · cases hptr
      · next hin =>
        obtain rfl := Option.some.inj hptr
        bv_omega

theorem fetchstr_eq_some {addr : Addr} {length : Nat} (h : (fetchstr p.toProc addr).value = some length) :
    ∀ a ∈ bytes addr (length + 1), a < p.sz := by
  have hconfined := @fetchstr_confined p.toProc addr
  unfold fetchstr at h hconfined
  split at h
  · cases h
  · next hin =>
    rw [if_neg hin] at hconfined
    cases hscan : Legacy.scan p.toProc (p.sz.toNat - addr.toNat) addr with
    | none =>
        rw [hscan] at h
        cases h
    | some found =>
        rw [hscan] at h hconfined
        obtain rfl := Option.some.inj h
        exact hconfined

def Strings (p : Proc) (strings : List (Addr × Nat)) : Prop :=
  ∀ s ∈ strings, ∀ a ∈ bytes s.1 (s.2 + 1), a < p.sz

theorem strings_nil : Strings p [] := fun _ hs => absurd hs List.not_mem_nil

theorem strings_cons {s : Addr × Nat} {strings : List (Addr × Nat)} (hs : ∀ a ∈ bytes s.1 (s.2 + 1), a < p.sz)
    (h : Strings p strings) : Strings p (s :: strings) := by
  intro other hother
  rcases List.mem_cons.mp hother with rfl | hother
  · exact hs
  · exact h other hother

theorem exec_confined {strings : List (Addr × Nat)} (h : Strings p strings) : ∀ a ∈ exec strings, a < p.sz := by
  intro a ha
  obtain ⟨s, hs, ha⟩ := List.mem_flatMap.mp ha
  exact h s hs a ha

def Safe {α : Type} (p : Proc) (fetched : Fetched α) (post : α → Prop) : Prop :=
  (∀ a ∈ fetched.touched, a < p.sz) ∧ ∀ value, fetched.value = some value → post value

theorem Safe.andThen {α β : Type} {first : Fetched α} {next : α → Fetched β} {mid : α → Prop} {post : β → Prop}
    (hfirst : Safe p first mid) (hnext : ∀ value, mid value → Safe p (next value) post) :
    Safe p (first.andThen next) post := by
  refine ⟨forall_andThen.mpr ⟨hfirst.1, fun value hvalue => (hnext value (hfirst.2 value hvalue)).1⟩, ?_⟩
  intro result hresult
  unfold Fetched.andThen at hresult
  cases hvalue : first.value with
  | none =>
      rw [hvalue] at hresult
      cases hresult
  | some value =>
      rw [hvalue] at hresult
      exact (hnext value (hfirst.2 value hvalue)).2 result hresult

theorem Safe.ret {α : Type} {value : α} {post : α → Prop} (h : post value) : Safe p ⟨some value, []⟩ post := by
  refine ⟨fun a ha => absurd ha List.not_mem_nil, ?_⟩
  intro other hother
  obtain rfl := Option.some.inj hother
  exact h

theorem Safe.fail {α : Type} {post : α → Prop} : Safe p (⟨none, []⟩ : Fetched α) post :=
  ⟨fun a ha => absurd ha List.not_mem_nil, fun value hvalue => by cases hvalue⟩

theorem Safe.done {touches : List Addr} (h : ∀ a ∈ touches, a < p.sz) :
    Safe p (⟨some (), touches⟩ : Fetched Unit) fun _ => True := ⟨h, fun _ _ => trivial⟩

theorem fetchint_safe (addr : Addr) : Safe p (fetchint p.toProc addr) fun _ => True :=
  ⟨fetchint_confined, fun _ _ => trivial⟩

theorem fetchstr_safe (addr : Addr) :
    Safe p (fetchstr p.toProc addr) fun length => ∀ a ∈ bytes addr (length + 1), a < p.sz :=
  ⟨fetchstr_confined, fun _ => fetchstr_eq_some⟩

theorem argint_safe (n : Nat) : Safe p (argint p n) fun _ => True := ⟨argint_confined n, fun _ _ => trivial⟩

theorem argptr_safe (n : Nat) (size : Addr) :
    Safe p (argptr p n size) fun addr => addr < p.sz ∧ addr + size ≤ p.sz :=
  ⟨argptr_confined n size, fun _ => argptr_eq_some⟩

theorem argfd_safe (n : Nat) : Safe p (argfd p n) fun _ => True := ⟨argfd_confined n, fun _ _ => trivial⟩

theorem argstr_safe (n : Nat) : Safe p (argstr p n) fun s => ∀ a ∈ bytes s.1 (s.2 + 1), a < p.sz :=
  (argint_safe n).andThen fun addr _ => (fetchstr_safe addr).andThen fun _ hlength => .ret hlength

theorem argvFrom_safe (uargv : Addr) (rounds i : Nat) : Safe p (argvFrom p uargv rounds i) (Strings p) := by
  induction rounds generalizing i with
  | zero => exact .fail
  | succ rounds ih =>
      refine (fetchint_safe _).andThen fun uarg _ => ?_
      split
      · exact .ret strings_nil
      · exact (fetchstr_safe uarg).andThen fun length hlength =>
          (ih (i + 1)).andThen fun rest hrest => .ret (strings_cons hlength hrest)

theorem sys_safe {call : Sys} (hcall : call ≠ .read) : Safe p (sys p call) fun _ => True := by
  have hsz := @sz_lt_top p.toProc
  have hnone : Safe p (⟨some (), []⟩ : Fetched Unit) fun _ => True := .ret trivial
  have hpath : Safe p (sysPath p) fun _ => True :=
    (argstr_safe 0).andThen fun path hpath => .done (exec_confined (strings_cons hpath strings_nil))
  cases call with
  | read => exact absurd rfl hcall
  | write =>
      exact (argfd_safe 0).andThen fun f _ => (argint_safe 2).andThen fun n _ => (argptr_safe 1 n).andThen
        fun addr haddr => .done (filewrite_confined haddr.1 haddr.2)
  | fstat =>
      exact (argfd_safe 0).andThen fun f _ => (argptr_safe 1 24).andThen
        fun st hst => .done (filestat_confined hst.1 hst.2)
  | pipe =>
      refine (argptr_safe 0 8).andThen fun fd hfd => .done ?_
      intro a ha
      rcases List.mem_append.mp ha with ha | ha
      · exact (forall_bytes_lt p.sz (by decide)).mpr (Or.inr (by bv_omega)) a ha
      · exact (forall_bytes_lt p.sz (by decide)).mpr (Or.inr (by bv_omega)) a ha
  | exec =>
      exact (argstr_safe 0).andThen fun path hpath => (argint_safe 1).andThen fun uargv _ =>
        (argvFrom_safe uargv maxArg 0).andThen fun argv hargv => .done (exec_confined (strings_cons hpath hargv))
  | link =>
      exact (argstr_safe 0).andThen fun old hold => (argstr_safe 1).andThen fun new hnew =>
        .done (exec_confined (strings_cons hold (strings_cons hnew strings_nil)))
  | chdir => exact hpath
  | «open» => exact hpath
  | mknod => exact hpath
  | unlink => exact hpath
  | mkdir => exact hpath
  | _ => exact hnone

theorem read_confined : (∀ a ∈ (sys p .read).touched, a < p.sz) ↔ Enough p := by
  unfold sys sysRead Enough
  simp only [forall_andThen]
  constructor
  · rintro ⟨-, hall⟩ f n addr hf hn haddr
    obtain ⟨hlt, hle⟩ := argptr_eq_some haddr
    exact (fileread_confined hlt hle).mp (((hall f hf).2 n hn).2 addr haddr)
  · intro hall
    refine ⟨argfd_confined 0, fun f hf => ⟨argint_confined 2, fun n hn => ⟨argptr_confined 1 n, ?_⟩⟩⟩
    intro addr haddr
    obtain ⟨hlt, hle⟩ := argptr_eq_some haddr
    exact (fileread_confined hlt hle).mpr (hall f n addr hf hn haddr)

end Confined

/-- **A system call is admitted with checked inputs**, unless its number is that of the word after the table or it reads
a file with a negative size. -/
theorem admits_iff (p : Proc) (after : Addr) (result : Target → Addr) :
    Admits p after result ↔ (p.reg 0 ≠ 22 ∨ after = 0) ∧ (p.reg 0 = numRead → Enough p) := by
  constructor
  · intro h
    refine ⟨(stored_iff after result (p.reg 0)).mp h.stored, fun hread => ?_⟩
    exact read_confined.mp (h.confined .read ((called_read_iff after result (p.reg 0)).mpr hread))
  · rintro ⟨hnumber, hread⟩
    refine ⟨(stored_iff after result (p.reg 0)).mpr hnumber, syscall_refused, fun call hcalled => ?_⟩
    by_cases hcall : call = .read
    · subst hcall
      exact read_confined.mpr (hread ((called_read_iff after result (p.reg 0)).mp hcalled))
    · exact (sys_safe hcall).1

/-- A process of one page that calls `sys_read` with descriptor 0, the address 0xFFC and the size -1. Descriptor 0 is a
file of 512 bytes. -/
def reader : Proc where
  sz := 4096
  sz_lt := Legacy.reader.sz_lt
  mem _ := 0
  sp := 0
  ofile := Legacy.reader.ofile
  reg k := if k.val = 0 then numRead else if k.val = 2 then 0xFFC else if k.val = 3 then 0xFFFFFFFF else 0

/-- It reads 512 bytes into the last four that it has. -/
theorem not_admits_reader : ¬ ∀ (p : Proc) (after : Addr) (result : Target → Addr), Admits p after result := by
  intro hall
  have hread := (hall reader 0 fun _ => 0).confined .read rfl
  have hfits := read_confined.mp hread _ 0xFFFFFFFF 0xFFC rfl rfl rfl (by decide) false 0 512 rfl
  unfold RestFits at hfits
  exact absurd hfits (by decide)

end Xv6.Args.Legacy.Arm
