import Xv6.Console.Input
import Xv6.Lib.Transition

/-!
# The line discipline of the console

What the user types is a line that can be edited, and lines that were committed wait to be read. The
three indices into one buffer keep these two apart, also where they overflow, and readers that take turns
get the committed bytes in order.
-/

namespace Xv6.Console

/-! ### Lines and committed bytes -/

/-- The input as the user sees it: the bytes committed and not read, and the line. -/
structure Edit where
  fifo : List Byte
  line : List Byte

namespace Edit

def size (edit : Edit) : Nat := edit.fifo.length + edit.line.length

def erase (edit : Edit) : Edit := { edit with line := edit.line.dropLast }

def kill (edit : Edit) : Edit := { edit with line := [] }

def append (edit : Edit) (c : Byte) : Edit := { edit with line := edit.line ++ [c] }

def commit (edit : Edit) : Edit := ⟨edit.fifo ++ edit.line, []⟩

/-- What a character does that is typed. -/
def type (edit : Edit) (c : Byte) : Edit :=
  if c = ctrl 'P' ∨ c = 0 then edit
  else if c = ctrl 'U' then edit.kill
  else if c = ctrl 'H' ∨ c = delete then edit.erase
  else if edit.size = inputBufSize then edit
  else
    let edit := edit.append (stored c)
    if stored c = newline ∨ stored c = ctrl 'D' ∨ edit.size = inputBufSize then edit.commit else edit

theorem fifo_type (edit : Edit) (c : Byte) : edit.fifo <+: (edit.type c).fifo := by
  unfold type
  by_cases hsame : c = ctrl 'P' ∨ c = 0
  · rw [if_pos hsame]
  rw [if_neg hsame]
  by_cases hkill : c = ctrl 'U'
  · rw [if_pos hkill]
    exact List.prefix_refl _
  rw [if_neg hkill]
  by_cases herase : c = ctrl 'H' ∨ c = delete
  · rw [if_pos herase]
    exact List.prefix_refl _
  rw [if_neg herase]
  by_cases hfull : edit.size = inputBufSize
  · rw [if_pos hfull]
  rw [if_neg hfull]
  dsimp only
  by_cases hcommit : stored c = newline ∨ stored c = ctrl 'D' ∨
      (edit.append (stored c)).size = inputBufSize
  · rw [if_pos hcommit]
    exact List.prefix_append _ _
  · rw [if_neg hcommit]
    exact List.prefix_refl _

end Edit

/-! ### What is in the buffer -/

namespace Cons

def fifo (cons : Cons) : List Byte := between cons.buf cons.r cons.w

def line (cons : Cons) : List Byte := between cons.buf cons.w cons.e

def edit (cons : Cons) : Edit := ⟨cons.fifo, cons.line⟩

structure Ok (cons : Cons) : Prop where
  order : (cons.w - cons.r).toNat + (cons.e - cons.w).toNat = (cons.e - cons.r).toNat
  room : (cons.e - cons.r).toNat ≤ inputBufSize
  plain : ∀ c ∈ cons.line, c ≠ newline

def empty : Cons := ⟨fun _ => 0, 0, 0, 0⟩

theorem fifo_empty : empty.fifo = [] := between_self

theorem line_empty : empty.line = [] := between_self

theorem ok_empty : empty.Ok := by
  refine ⟨by decide, by decide, fun c hc => ?_⟩
  rw [line_empty] at hc
  cases hc

variable {cons : Cons}

theorem Ok.size_eq (h : cons.Ok) : cons.edit.size = (cons.e - cons.r).toNat := by
  calc cons.edit.size
      = (cons.w - cons.r).toNat + (cons.e - cons.w).toNat := by
        unfold Edit.size edit fifo line
        rw [length_between, length_between]
    _ = (cons.e - cons.r).toNat := h.order

theorem Ok.erase (h : cons.Ok) (hne : cons.e ≠ cons.w) :
    cons.erase.Ok ∧ cons.erase.edit = cons.edit.erase := by
  have hline : cons.line = cons.erase.line ++ [cons.buf (slot (cons.e - 1))] := between_concat hne.symm
  obtain ⟨horder, hroom, hplain⟩ := h
  refine ⟨⟨?_, ?_, fun c hc => hplain c ?_⟩, ?_⟩
  · unfold Cons.erase
    dsimp only
    bv_omega
  · unfold Cons.erase inputBufSize at *
    dsimp only
    bv_omega
  · rw [hline]
    exact List.mem_append_left _ hc
  · unfold edit Edit.erase
    dsimp only
    rw [hline, List.dropLast_concat]
    rfl

theorem Ok.killLine {rounds : Nat} (h : cons.Ok) (hrounds : (cons.e - cons.w).toNat = rounds) :
    (cons.killLine rounds).Ok ∧ (cons.killLine rounds).edit = cons.edit.kill := by
  induction rounds generalizing cons with
  | zero =>
      refine ⟨h, congrArg (Edit.mk _) ?_⟩
      exact List.length_eq_zero_iff.mp (length_between.trans hrounds)
  | succ rounds ih =>
      have hne : cons.e ≠ cons.w := by
        intro heq
        rw [heq, BitVec.sub_self] at hrounds
        cases hrounds
      have hlast : cons.buf (slot (cons.e - 1)) ≠ newline := by
        apply h.plain
        unfold line
        rw [between_concat hne.symm]
        exact List.mem_append_right _ List.mem_cons_self
      obtain ⟨hok, hedit⟩ := h.erase hne
      have hleft : (cons.erase.e - cons.erase.w).toNat = rounds := by
        unfold Cons.erase
        dsimp only
        bv_omega
      obtain ⟨hok', hedit'⟩ := ih hok hleft
      rw [Cons.killLine, if_pos ⟨hne, hlast⟩]
      refine ⟨hok', hedit'.trans ?_⟩
      rw [hedit]
      rfl

theorem edit_put (c : Byte) (h : cons.Ok) (hroom : (cons.e - cons.r).toNat < inputBufSize) :
    (cons.put c).edit = cons.edit.append c := by
  have horder := h.order
  have hfifo : (cons.put c).fifo = cons.fifo := between_update c horder hroom
  have hne : cons.w ≠ cons.e + 1 := by
    intro heq
    unfold inputBufSize at *
    bv_omega
  have hback : cons.e + 1 - 1 = cons.e := by bv_omega
  have hline : (cons.put c).line = cons.line ++ [c] := by
    unfold line put
    dsimp only
    rw [between_concat hne, hback, Function.update_self, between_update c (by simp) (by omega)]
  unfold edit Edit.append
  rw [hfifo, hline]

theorem Ok.consoleintr (h : cons.Ok) (c : Byte) :
    (cons.consoleintr c).Ok ∧ (cons.consoleintr c).edit = cons.edit.type c := by
  unfold Cons.consoleintr Edit.type
  by_cases hprint : c = ctrl 'P'
  · rw [if_pos hprint, if_pos (Or.inl hprint)]
    exact ⟨h, rfl⟩
  by_cases hnul : c = 0
  · subst hnul
    rw [if_neg (by decide), if_neg (by decide), if_neg (by decide), if_neg (by simp),
      if_pos (Or.inr rfl)]
    exact ⟨h, rfl⟩
  rw [if_neg hprint, if_neg (not_or_intro hprint hnul)]
  by_cases hkill : c = ctrl 'U'
  · rw [if_pos hkill, if_pos hkill]
    exact h.killLine rfl
  rw [if_neg hkill, if_neg hkill]
  by_cases herase : c = ctrl 'H' ∨ c = delete
  · rw [if_pos herase, if_pos herase]
    by_cases hempty : cons.e = cons.w
    · have hline : cons.line = [] := by
        unfold line
        rw [hempty, between_self]
      rw [if_neg (not_not_intro hempty)]
      refine ⟨h, ?_⟩
      unfold Edit.erase edit
      rw [hline, List.dropLast_nil]
    · rw [if_pos hempty]
      exact h.erase hempty
  rw [if_neg herase, if_neg herase]
  by_cases hfull : cons.edit.size = inputBufSize
  · have hnoroom : ¬(c ≠ 0 ∧ (cons.e - cons.r).toNat < inputBufSize) := by
      rw [← h.size_eq, hfull]
      exact fun hroom => Nat.lt_irrefl _ hroom.2
    rw [if_neg hnoroom, if_pos hfull]
    exact ⟨h, rfl⟩
  have hlt : (cons.e - cons.r).toNat < inputBufSize :=
    Nat.lt_of_le_of_ne h.room (h.size_eq ▸ hfull)
  rw [if_pos ⟨hnul, hlt⟩, if_neg hfull]
  dsimp only
  generalize stored c = d
  have hedit := edit_put d h hlt
  have horder := h.order
  have hcount : (cons.e + 1 - cons.r).toNat = (cons.e - cons.r).toNat + 1 := by
    unfold inputBufSize at hlt
    bv_omega
  have hsize : (cons.edit.append d).size = (cons.e + 1 - cons.r).toNat := by
    rw [hcount, ← h.size_eq]
    unfold Edit.append Edit.size
    rw [List.length_append, ← Nat.add_assoc]
    rfl
  have hcount' : ((cons.put d).e - (cons.put d).r).toNat = (cons.edit.append d).size := hsize.symm
  rw [hcount']
  by_cases hcommit : d = newline ∨ d = ctrl 'D' ∨ (cons.edit.append d).size = inputBufSize
  · rw [if_pos hcommit, if_pos hcommit]
    refine ⟨⟨?_, ?_, fun b hb => ?_⟩, ?_⟩
    · change (cons.e + 1 - cons.r).toNat + (cons.e + 1 - (cons.e + 1)).toNat = (cons.e + 1 - cons.r).toNat
      rw [BitVec.sub_self]
      rfl
    · change (cons.e + 1 - cons.r).toNat ≤ inputBufSize
      omega
    · change b ∈ between _ (cons.e + 1) (cons.e + 1) at hb
      rw [between_self] at hb
      cases hb
    · have hfifo : between (cons.put d).buf cons.r (cons.e + 1) =
          (cons.put d).fifo ++ (cons.put d).line := by
        apply between_append
        change (cons.w - cons.r).toNat + (cons.e + 1 - cons.w).toNat = (cons.e + 1 - cons.r).toNat
        bv_omega
      calc (⟨between (cons.put d).buf cons.r (cons.e + 1), between _ (cons.e + 1) (cons.e + 1)⟩ : Edit)
          = (cons.put d).edit.commit := by
            rw [hfifo, between_self]
            rfl
        _ = (cons.edit.append d).commit := congrArg Edit.commit hedit
  · rw [if_neg hcommit, if_neg hcommit]
    refine ⟨⟨?_, ?_, fun b hb => ?_⟩, hedit⟩
    · change (cons.w - cons.r).toNat + (cons.e + 1 - cons.w).toNat = (cons.e + 1 - cons.r).toNat
      bv_omega
    · change (cons.e + 1 - cons.r).toNat ≤ inputBufSize
      omega
    · have hline : (cons.put d).line = cons.line ++ [d] := congrArg Edit.line hedit
      rw [hline] at hb
      rcases List.mem_append.mp hb with hold | hnew
      · exact h.plain b hold
      · rw [List.mem_singleton.mp hnew]
        exact fun heq => hcommit (Or.inl heq)

theorem Ok.advance (h : cons.Ok) (hne : cons.r ≠ cons.w) :
    cons.advance.Ok ∧ cons.fifo = cons.head :: cons.advance.fifo := by
  obtain ⟨horder, hroom, hplain⟩ := h
  refine ⟨⟨?_, ?_, hplain⟩, between_cons hne⟩
  · unfold Cons.advance
    dsimp only
    bv_omega
  · unfold Cons.advance inputBufSize at *
    dsimp only
    bv_omega

end Cons

/-! ### Reading -/

/-- The byte that was taken. -/
def Taken.byte : Taken → Byte
  | .copied c | .lost c => c
  | .endOfFile => ctrl 'D'

def Taken.delivered : Taken → Option Byte
  | .copied c => some c
  | .lost _ | .endOfFile => none

def Plain (bytes : List Byte) : Prop := ∀ c ∈ bytes, c ≠ newline ∧ c ≠ ctrl 'D'

/-- How a call ends, or goes to sleep, that has `left` of `target` bytes to go and does not go on: what it
takes last, and what is committed and not read then. -/
inductive Ends (target : Nat) : (left : Nat) → List Taken → Ending → List Byte → Prop where
  | done (fifo) : Ends target 0 [] (.returned target) fifo
  | asleep {left} : 0 < left → Ends target left [] (.asleep left) []
  | killed {left} : 0 < left → Ends target left [] (.returned (-1)) []
  | heldBack {left} (fifo) : 0 < left → left < target →
      Ends target left [] (.returned (target - left : Nat)) (ctrl 'D' :: fifo)
  | endOfFile (fifo) : 0 < target → Ends target target [.endOfFile] (.returned 0) fifo
  | lost {left} (c fifo) : 0 < left → c ≠ ctrl 'D' →
      Ends target left [.lost c] (.returned (target - left : Nat)) fifo
  | newline {left} (fifo) :
      Ends target (left + 1) [.copied newline] (.returned (target - left : Nat)) fifo

theorem consoleread_spec {cons : Cons} {target n : Nat} (killed : Bool) (fails : Nat → Bool)
    (h : cons.Ok) (hn : n ≤ target) :
    ∃ bytes last cons' ending, consoleread target killed fails n cons =
        (cons', bytes.map .copied ++ last, ending) ∧
      Plain bytes ∧ bytes.length ≤ n ∧ cons'.Ok ∧ cons'.line = cons.line ∧
      cons.fifo = (bytes.map .copied ++ last).map Taken.byte ++ cons'.fifo ∧
      Ends target (n - bytes.length) last ending cons'.fifo := by
  have hnil : Plain [] := by
    intro c hc
    cases hc
  induction n generalizing cons with
  | zero => exact ⟨[], [], cons, _, rfl, hnil, Nat.le_refl 0, h, rfl, rfl, .done _⟩
  | succ n ih =>
      unfold consoleread
      by_cases hempty : cons.r = cons.w
      · have hfifo : cons.fifo = [] := by
          unfold Cons.fifo
          rw [hempty, between_self]
        rw [if_pos hempty]
        refine ⟨[], [], cons, _, rfl, hnil, Nat.zero_le _, h, rfl, rfl, ?_⟩
        rw [hfifo]
        cases killed with
        | false => exact .asleep (Nat.succ_pos n)
        | true => exact .killed (Nat.succ_pos n)
      rw [if_neg hempty]
      dsimp only
      obtain ⟨hok, hfifo⟩ := h.advance hempty
      generalize cons.head = c at hfifo
      by_cases heof : c = ctrl 'D'
      · subst heof
        rw [if_pos rfl]
        by_cases hsome : n + 1 < target
        · rw [if_pos hsome]
          refine ⟨[], [], cons, _, rfl, hnil, Nat.zero_le _, h, rfl, rfl, ?_⟩
          rw [hfifo]
          exact .heldBack _ (Nat.succ_pos n) hsome
        · obtain rfl : target = n + 1 := Nat.le_antisymm (Nat.not_lt.mp hsome) hn
          rw [if_neg hsome, Nat.sub_self]
          exact ⟨[], [.endOfFile], _, _, rfl, hnil, Nat.zero_le _, hok, rfl, hfifo,
            .endOfFile _ (Nat.succ_pos n)⟩
      rw [if_neg heof]
      by_cases hfails : fails (n + 1) = true
      · rw [if_pos hfails]
        exact ⟨[], [.lost c], _, _, rfl, hnil, Nat.zero_le _, hok, rfl, hfifo,
          .lost c _ (Nat.succ_pos n) heof⟩
      rw [if_neg hfails]
      by_cases hline : c = newline
      · subst hline
        rw [if_pos rfl]
        exact ⟨[], [.copied newline], _, _, rfl, hnil, Nat.zero_le _, hok, rfl, hfifo, .newline _⟩
      rw [if_neg hline]
      obtain ⟨bytes, last, cons', ending, hread, hplain, hlength, hok', hsame, hfifo', hends⟩ :=
        ih hok (Nat.le_of_succ_le hn)
      rw [hread]
      refine ⟨c :: bytes, last, cons', ending, rfl, ?_, Nat.succ_le_succ hlength, hok', hsame, ?_, ?_⟩
      · intro b hb
        rcases List.mem_cons.mp hb with rfl | hb
        · exact ⟨hline, heof⟩
        · exact hplain b hb
      · rw [hfifo, hfifo']
        rfl
      · rw [List.length_cons, Nat.add_sub_add_right]
        exact hends

/-! ### Runs -/

/-- A call of `consoleread` that sleeps, with `n` of `target` bytes to go. -/
structure Call where
  target : Nat
  n : Nat
  dst : List Byte

/-- A call held `cons.lock` once: what it has delivered by then, what it took, and the bytes that it left
there. -/
structure Section (ι : Type) where
  who : ι
  dst : List Byte
  taken : List Taken
  ending : Ending
  left : List Byte

/-- The console and those who read it. The last two are for the statements: all bytes that have been
committed, and every section of a reader. -/
structure State (ι : Type) where
  cons : Cons
  call : ι → Option Call
  committed : List Byte
  sections : List (Section ι)

inductive Action (ι : Type) where
  /-- An interrupt, with a character. -/
  | consoleintr (c : Byte)
  /-- A process calls `consoleread`. -/
  | consoleread (who : ι) (n : Nat) (killed : Bool) (fails : Nat → Bool)
  /-- A call wakes up, and takes the lock again. -/
  | resume (who : ι) (killed : Bool) (fails : Nat → Bool)

section Runs

variable {ι : Type} [DecidableEq ι]

def Ending.call (target : Nat) (dst : List Byte) : Ending → Option Call
  | .asleep n => some ⟨target, n, dst⟩
  | .returned _ => none

def State.read (state : State ι) (who : ι) (call : Call) (killed : Bool) (fails : Nat → Bool) :
    State ι :=
  let result := Console.consoleread call.target killed fails call.n state.cons
  let dst := call.dst ++ result.2.1.filterMap Taken.delivered
  { state with
    cons := result.1
    call := Function.update state.call who (result.2.2.call call.target dst)
    sections := state.sections ++ [⟨who, dst, result.2.1, result.2.2, result.1.fifo⟩] }

/-- One section under `cons.lock`. -/
def step (state : State ι) : Action ι → Option (State ι)
  | .consoleintr c =>
      let cons := state.cons.consoleintr c
      some { state with
        cons
        committed := state.committed ++ cons.fifo.drop state.cons.fifo.length }
  | .consoleread who n killed fails =>
      if n = 0 ∨ (state.call who).isSome then none else some (state.read who ⟨n, n, []⟩ killed fails)
  | .resume who killed fails => (state.call who).map fun call => state.read who call killed fails

/-- `consoleinit`. -/
def boot (ι : Type) : State ι where
  cons := .empty
  call _ := none
  committed := []
  sections := []

def State.taken (state : State ι) : List Taken := state.sections.flatMap Section.taken

/-- What a reader does in a section. -/
structure Section.Legal {ι : Type} (portion : Section ι) : Prop where
  byte : ∀ t ∈ portion.taken, t.byte = ctrl 'D' ↔ t = .endOfFile
  /-- A newline, a Control-D and a byte that is lost are the last that it takes, -/
  plain : ∀ t ∈ portion.taken.dropLast, ∃ c, t = .copied c ∧ c ≠ newline
  /-- and it goes to sleep only where it met none of these, and has taken all there was. -/
  asleep : ∀ n, portion.ending = .asleep n →
    portion.left = [] ∧ ∀ t ∈ portion.taken, ∃ c, t = .copied c ∧ c ≠ newline
  returned : ∀ value, portion.ending = .returned value → value = portion.dst.length ∨ value = -1
  /-- Whoever takes a Control-D returns with no byte, -/
  endOfFile : .endOfFile ∈ portion.taken →
    portion.taken = [.endOfFile] ∧ portion.dst = [] ∧ portion.ending = .returned 0
  /-- and nobody else does whose `either_copyout` succeeds. -/
  empty : portion.ending = .returned 0 → portion.taken = [.endOfFile] ∨ ∃ c, portion.taken = [.lost c]

structure Call.Ok (call : Call) : Prop where
  pos : 0 < call.n
  sum : call.dst.length + call.n = call.target

section Section

variable {target left : Nat} {bytes dst fifo : List Byte} {last : List Taken} {ending : Ending}

theorem Ends.last_eq (h : Ends target left last ending fifo) : last = [] ∨ ∃ t, last = [t] := by
  cases h with
  | done | asleep | killed | heldBack => exact Or.inl rfl
  | endOfFile | lost | newline => exact Or.inr ⟨_, rfl⟩

theorem Ends.mem_dropLast (h : Ends target left last ending fifo) {t : Taken}
    (ht : t ∈ (bytes.map Taken.copied ++ last).dropLast) : ∃ c ∈ bytes, t = .copied c := by
  have hmem : t ∈ bytes.map Taken.copied := by
    rcases h.last_eq with rfl | ⟨other, rfl⟩
    · rw [List.append_nil] at ht
      exact List.mem_of_mem_dropLast ht
    · rwa [List.dropLast_concat] at ht
  obtain ⟨c, hc, rfl⟩ := List.mem_map.mp hmem
  exact ⟨c, hc, rfl⟩

theorem filterMap_delivered_copied : (bytes.map Taken.copied).filterMap Taken.delivered = bytes := by
  rw [List.filterMap_map]
  exact List.filterMap_some

theorem Ends.call_ok {call : Call} (h : Ends target left last ending fifo)
    (hsum : dst.length + left = target)
    (hcall : ending.call target (dst ++ last.filterMap Taken.delivered) = some call) : call.Ok := by
  cases h with
  | asleep hpos =>
      obtain rfl := Option.some.inj hcall
      refine ⟨hpos, ?_⟩
      dsimp only
      rw [List.filterMap_nil, List.append_nil]
      exact hsum
  | done | killed | heldBack | endOfFile | lost | newline => cases hcall

omit [DecidableEq ι] in
theorem Ends.legal {who : ι} {n : Nat} (h : Ends target left last ending fifo) (hplain : Plain bytes)
    (hpos : 0 < n) (hsum : dst.length + n = target) (hleft : bytes.length + left = n) :
    Section.Legal ⟨who, dst ++ bytes ++ last.filterMap Taken.delivered,
      bytes.map Taken.copied ++ last, ending, fifo⟩ := by
  have hcopied : ∀ t ∈ bytes.map Taken.copied, ∃ c, t = .copied c ∧ c ≠ Console.newline ∧ c ≠ ctrl 'D' := by
    intro t ht
    obtain ⟨c, hc, rfl⟩ := List.mem_map.mp ht
    exact ⟨c, rfl, hplain c hc⟩
  have hlength : (dst ++ bytes).length = target - left := by
    rw [List.length_append]
    omega
  refine ⟨fun t ht => ?_, fun t ht => ?_, fun m hm => ?_, fun value hvalue => ?_, fun heof => ?_,
    fun hzero => ?_⟩
  · rcases List.mem_append.mp ht with hbyte | hlast
    · obtain ⟨c, rfl, -, hne⟩ := hcopied t hbyte
      exact iff_of_false hne Taken.noConfusion
    · cases h with
      | done | asleep | killed | heldBack => cases hlast
      | endOfFile =>
          rw [List.mem_singleton.mp hlast]
          exact iff_of_true rfl rfl
      | lost c _ _ hne =>
          rw [List.mem_singleton.mp hlast]
          exact iff_of_false hne Taken.noConfusion
      | newline =>
          rw [List.mem_singleton.mp hlast]
          exact iff_of_false (by decide) Taken.noConfusion
  · obtain ⟨c, hc, rfl⟩ := h.mem_dropLast ht
    exact ⟨c, rfl, (hplain c hc).1⟩
  · cases h with
    | asleep =>
        refine ⟨rfl, fun t ht => ?_⟩
        rw [List.append_nil] at ht
        obtain ⟨c, rfl, hne, -⟩ := hcopied t ht
        exact ⟨c, rfl, hne⟩
    | done | killed | heldBack | endOfFile | lost | newline => cases hm
  · dsimp only at hvalue ⊢
    rw [List.length_append, hlength]
    cases h with
    | done | heldBack | lost =>
        obtain rfl := Ending.returned.inj hvalue
        exact Or.inl rfl
    | asleep => cases hvalue
    | killed => exact Or.inr (Ending.returned.inj hvalue).symm
    | endOfFile =>
        obtain rfl := Ending.returned.inj hvalue
        rw [Nat.sub_self]
        exact Or.inl rfl
    | @newline left =>
        obtain rfl := Ending.returned.inj hvalue
        change ((target - left : Nat) : Int) = ((target - (left + 1) + 1 : Nat) : Int) ∨ _
        have hnext : target - left = target - (left + 1) + 1 := by omega
        exact Or.inl (congrArg _ hnext)
  · have hmem : Taken.endOfFile ∈ last := by
      refine (List.mem_append.mp heof).resolve_left fun hbyte => ?_
      obtain ⟨c, heq, -⟩ := hcopied _ hbyte
      cases heq
    cases h with
    | done | asleep | killed | heldBack => cases hmem
    | lost | newline => cases List.mem_singleton.mp hmem
    | endOfFile =>
        have hbytes : bytes = [] := List.length_eq_zero_iff.mp (by omega)
        have hdst : dst = [] := List.length_eq_zero_iff.mp (by omega)
        subst hbytes hdst
        exact ⟨rfl, rfl, rfl⟩
  · dsimp only at hzero ⊢
    have hbytes : target - left = 0 → bytes = [] := fun hnone =>
      List.length_eq_zero_iff.mp (by omega)
    cases h with
    | done =>
        have hnone := Int.ofNat_eq_zero.mp (Ending.returned.inj hzero)
        omega
    | asleep | killed => cases hzero
    | heldBack _ _ hlt =>
        have hnone := Int.ofNat_eq_zero.mp (Ending.returned.inj hzero)
        omega
    | endOfFile =>
        rw [hbytes (Nat.sub_self _)]
        exact Or.inl rfl
    | lost c =>
        rw [hbytes (Int.ofNat_eq_zero.mp (Ending.returned.inj hzero))]
        exact Or.inr ⟨c, rfl⟩
    | newline =>
        have hnone := Int.ofNat_eq_zero.mp (Ending.returned.inj hzero)
        omega

end Section

/-- **The line discipline.** -/
structure Discipline (state : State ι) : Prop where
  /-- The indices are in order, and no further apart than there is room. -/
  order : (state.cons.w - state.cons.r).toNat + (state.cons.e - state.cons.w).toNat =
    (state.cons.e - state.cons.r).toNat
  room : (state.cons.e - state.cons.r).toNat ≤ inputBufSize
  /-- A character does to the line and to the committed bytes what it should. -/
  type : ∀ c, (state.cons.consoleintr c).edit = state.cons.edit.type c
  /-- What was committed is what readers took, and what they did not take yet. -/
  stream : state.committed = state.taken.map Taken.byte ++ state.cons.fifo
  legal : ∀ portion ∈ state.sections, portion.Legal

structure Inv (state : State ι) : Prop where
  ok : state.cons.Ok
  calls : ∀ {who call}, state.call who = some call → call.Ok
  stream : state.committed = state.taken.map Taken.byte ++ state.cons.fifo
  legal : ∀ portion ∈ state.sections, portion.Legal

variable {state state' : State ι} {who : ι} {call : Call}

theorem Inv.read (h : Inv state) (hcall : call.Ok) (killed : Bool) (fails : Nat → Bool) :
    Inv (state.read who call killed fails) := by
  have hle : call.n ≤ call.target := by
    have hsum := hcall.sum
    omega
  obtain ⟨bytes, last, cons', ending, hread, hplain, hlength, hok, -, hfifo, hends⟩ :=
    consoleread_spec killed fails h.ok hle
  have hdelivered : (bytes.map Taken.copied ++ last).filterMap Taken.delivered =
      bytes ++ last.filterMap Taken.delivered := by
    rw [List.filterMap_append, filterMap_delivered_copied]
  have hlegal : Section.Legal ⟨who, call.dst ++ bytes ++ last.filterMap Taken.delivered,
      bytes.map Taken.copied ++ last, ending, cons'.fifo⟩ :=
    hends.legal hplain hcall.pos hcall.sum (Nat.add_sub_cancel' hlength)
  unfold State.read
  rw [hread]
  dsimp only
  rw [hdelivered, ← List.append_assoc]
  refine ⟨hok, fun {other call'} hother => ?_, ?_, fun portion hmem => ?_⟩
  · dsimp only at hother
    by_cases hwho : other = who
    · rw [hwho, Function.update_self] at hother
      refine hends.call_ok ?_ hother
      have hsum := hcall.sum
      rw [List.length_append]
      omega
    · rw [Function.update_of_ne hwho] at hother
      exact h.calls hother
  · calc state.committed
        = state.taken.map Taken.byte ++ state.cons.fifo := h.stream
      _ = (state.taken ++ (bytes.map Taken.copied ++ last)).map Taken.byte ++ cons'.fifo := by
          rw [hfifo, ← List.append_assoc, ← List.map_append]
      _ = _ := by
          unfold State.taken
          rw [List.flatMap_append, List.flatMap_cons, List.flatMap_nil, List.append_nil]
  · rcases List.mem_append.mp hmem with hold | hnew
    · exact h.legal portion hold
    · rw [List.mem_singleton.mp hnew]
      exact hlegal

theorem Inv.step {action : Action ι} (h : Inv state) (hstep : Console.step state action = some state') :
    Inv state' := by
  cases action with
  | consoleintr c =>
      obtain rfl := Option.some.inj hstep
      obtain ⟨hok, hedit⟩ := h.ok.consoleintr c
      refine ⟨hok, h.calls, ?_, h.legal⟩
      obtain ⟨new, hnew⟩ := state.cons.edit.fifo_type c
      have hfifo : (state.cons.consoleintr c).fifo = state.cons.fifo ++ new :=
        (congrArg Edit.fifo hedit).trans hnew.symm
      change state.committed ++ (state.cons.consoleintr c).fifo.drop state.cons.fifo.length =
        state.taken.map Taken.byte ++ (state.cons.consoleintr c).fifo
      rw [hfifo, List.drop_left, h.stream, List.append_assoc]
  | consoleread who n killed fails =>
      change (if n = 0 ∨ (state.call who).isSome then none
        else some (state.read who ⟨n, n, []⟩ killed fails)) = some state' at hstep
      by_cases hbusy : n = 0 ∨ (state.call who).isSome
      · rw [if_pos hbusy] at hstep
        cases hstep
      · rw [if_neg hbusy] at hstep
        obtain rfl := Option.some.inj hstep
        have hpos : 0 < n := Nat.pos_of_ne_zero fun hzero => hbusy (Or.inl hzero)
        have hcall : Call.Ok ⟨n, n, []⟩ := ⟨hpos, Nat.zero_add n⟩
        exact h.read hcall killed fails
  | resume who killed fails =>
      obtain ⟨call, hcall, rfl⟩ := Option.map_eq_some_iff.mp hstep
      exact h.read (h.calls hcall) killed fails

omit [DecidableEq ι] in
theorem inv_boot : Inv (boot ι) := by
  have hfifo : (boot ι).cons.fifo = [] := Cons.fifo_empty
  refine ⟨Cons.ok_empty, fun hcall => ?_, ?_, fun portion hmem => ?_⟩
  · cases hcall
  · rw [hfifo]
    rfl
  · cases hmem

/-- **The console keeps its line discipline**, whatever is typed and whoever reads. -/
theorem discipline_of_run {actions : List (Action ι)}
    (hrun : Transition.run step (boot ι) actions = some state) : Discipline state := by
  have hinv : Inv state := Transition.invariant_run (fun _ _ _ h hstep => h.step hstep) inv_boot hrun
  exact ⟨hinv.ok.order, hinv.ok.room, fun c => (hinv.ok.consoleintr c).2, hinv.stream, hinv.legal⟩

end Runs

/-- A byte that is typed while there is room, and is not appended. -/
theorem nul_dropped :
    ∃ state, Transition.run step (boot Bool) [.consoleintr 0] = some state ∧
      (boot Bool).cons.edit.size < inputBufSize ∧
        state.cons.edit.line ≠ (boot Bool).cons.edit.line ++ [stored 0] :=
  ⟨_, rfl, by decide, by decide⟩

/-- A line is typed and read by two calls, and another call finds a Control-D. -/
def typed : List (Action Bool) :=
  [.consoleintr 0x61, .consoleintr 0x62, .consoleintr delete, .consoleread true 1 false fun _ => false,
    .consoleintr carriageReturn, .resume true false fun _ => false, .consoleread false 5 false fun _ => false,
    .consoleintr (ctrl 'D'), .consoleread true 5 false fun _ => false]

theorem discipline_of_run_typed :
    ∃ state, Transition.run step (boot Bool) typed = some state ∧ Discipline state ∧
      state.sections.map Section.taken =
        [[], [.copied 0x61], [.copied newline], [.endOfFile]] := by
  have hrun : ∃ state, Transition.run step (boot Bool) typed = some state ∧
      state.sections.map Section.taken = [[], [.copied 0x61], [.copied newline], [.endOfFile]] :=
    ⟨_, rfl, by decide +kernel⟩
  obtain ⟨state, hstate, htaken⟩ := hrun
  exact ⟨state, hstate, discipline_of_run hstate, htaken⟩

end Xv6.Console
