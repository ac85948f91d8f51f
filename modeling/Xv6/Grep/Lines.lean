import Mathlib.Data.List.TakeWhile
import Xv6.Grep.Matcher

/-!
# The lines grep prints

`grep` of `utilities/grep.c`. It reads into a buffer, prints the matching lines that are whole, and moves what is left
to the beginning of the buffer.
-/

namespace Xv6.Grep

/-! ### The code -/

/-- `'\n'`. -/
def newline : UInt8 := 10

/-- `sizeof(buf)`. -/
def bufSize : Nat := 1024

/-- Where `strchr` finds a byte. -/
def strchr (c : UInt8) : (s : List UInt8) → Option Nat
  | [] => none
  | x :: s => if x = 0 then none else if x = c then some 0 else (strchr c s).map (· + 1)

theorem strchr_lt {c : UInt8} {s : List UInt8} {q : Nat} (h : strchr c s = some q) : q < s.length := by
  induction s generalizing q with
  | nil => cases h
  | cons x s ih =>
      rw [strchr] at h
      split at h
      · cases h
      · split at h
        · obtain rfl := Option.some.inj h
          exact Nat.succ_pos _
        · obtain ⟨q', hq', rfl⟩ := Option.map_eq_some_iff.mp h
          exact Nat.succ_lt_succ (ih hq')

/-- The loop over the lines from `p` on: what it writes, and what it leaves. -/
def scan (pattern p : List UInt8) : List (List UInt8) × List UInt8 :=
  match hq : strchr newline p with
  | none => ([], p)
  | some q =>
      let rest := scan pattern (p.drop (q + 1))
      (if «match» pattern (p.take q) then p.take (q + 1) :: rest.1 else rest.1, rest.2)
termination_by p.length
decreasing_by
  have hlt := strchr_lt hq
  rw [List.length_drop]
  omega

/-- `read` of at most `count` bytes: it returns some of the bytes ahead, at least one unless there are none or it is
asked for none. -/
def read (cut count : Nat) (input : List UInt8) : List UInt8 := input.take (min (cut + 1) count)

/-- The loop of `grep`, with `kept` in the buffer. `cuts` says how much each call of `read` returns. -/
def grepFrom (pattern : List UInt8) (cuts : Nat → Nat) (reads : Nat) (kept input : List UInt8) : List (List UInt8) :=
  let chunk := read (cuts reads) (bufSize - kept.length - 1) input
  if _h : chunk = [] then []
  else
    let lines := scan pattern (kept ++ chunk)
    lines.1 ++ grepFrom pattern cuts (reads + 1) lines.2 (input.drop chunk.length)
termination_by input.length
decreasing_by
  have hpos : 0 < chunk.length := List.length_pos_iff.mpr _h
  have hle : chunk.length ≤ input.length := List.length_take_le' _ _
  change (input.drop chunk.length).length < input.length
  rw [List.length_drop]
  omega

/-- What `grep` writes, call by call. -/
def grep (pattern : List UInt8) (cuts : Nat → Nat) (input : List UInt8) : List (List UInt8) :=
  grepFrom pattern cuts 0 [] input

/-! ### Lines -/

/-- The lines of an input, each with its newline if it has one. -/
def lines : List UInt8 → List (List UInt8)
  | [] => []
  | c :: input =>
      if c = newline then [c] :: lines input
      else
        match lines input with
        | [] => [[c]]
        | line :: rest => (c :: line) :: rest

def matching (pattern line : List UInt8) : Bool := «match» pattern (line.takeWhile (· ≠ newline))

def delivered (line : List UInt8) : Bool := line.getLast? = some newline ∧ line.length < bufSize

/-- The lines `grep` does not get to: from the first on that is too long or has no newline. -/
def dropped (input : List UInt8) : List (List UInt8) := (lines input).dropWhile delivered

section Lines

variable {pattern input line rest kept p : List UInt8} {q : Nat}

theorem lines_newline (input : List UInt8) : lines (newline :: input) = [newline] :: lines input := by
  rw [lines, if_pos rfl]

theorem lines_append (hline : newline ∉ line) (input : List UInt8) :
    lines (line ++ newline :: input) = (line ++ [newline]) :: lines input := by
  induction line with
  | nil => exact lines_newline input
  | cons c line ih =>
      rw [List.cons_append, lines, if_neg (List.ne_of_not_mem_cons hline).symm,
        ih (List.not_mem_of_not_mem_cons hline)]
      rfl

theorem takeWhile_append_newline (hline : newline ∉ line) :
    (line ++ [newline]).takeWhile (· ≠ newline) = line := by
  rw [List.takeWhile_append_of_pos fun c hc => decide_eq_true (ne_of_mem_of_not_mem hc hline)]
  simp

theorem head_lines (hkept : newline ∉ kept) (hne : kept ≠ []) (input : List UInt8) :
    ∃ line rest, lines (kept ++ input) = (kept ++ line) :: rest ∧ (input = [] → line = []) := by
  induction kept with
  | nil => exact absurd rfl hne
  | cons c kept ih =>
      rw [List.cons_append, lines, if_neg (List.ne_of_not_mem_cons hkept).symm]
      cases kept with
      | nil =>
          rw [List.nil_append]
          cases hinput : lines input with
          | nil => exact ⟨[], [], rfl, fun _ => rfl⟩
          | cons line rest =>
              refine ⟨line, rest, rfl, fun hnil => ?_⟩
              rw [hnil] at hinput
              exact absurd hinput.symm (List.cons_ne_nil _ _)
      | cons d kept =>
          obtain ⟨line, rest, hlines, hnil⟩ := ih (List.not_mem_of_not_mem_cons hkept) (List.cons_ne_nil d kept)
          rw [hlines]
          exact ⟨line, rest, rfl, hnil⟩

theorem strchr_eq (hnull : 0 ∉ p) : strchr newline p = none ∧ newline ∉ p ∨
    ∃ line rest, strchr newline p = some line.length ∧ newline ∉ line ∧ p = line ++ newline :: rest := by
  induction p with
  | nil => exact Or.inl ⟨rfl, List.not_mem_nil⟩
  | cons x p ih =>
      rw [strchr, if_neg (List.ne_of_not_mem_cons hnull).symm]
      by_cases hnewline : x = newline
      · rw [if_pos hnewline]
        exact Or.inr ⟨[], p, rfl, List.not_mem_nil, by rw [hnewline]; rfl⟩
      · rw [if_neg hnewline]
        rcases ih (List.not_mem_of_not_mem_cons hnull) with ⟨hnone, hp⟩ | ⟨line, rest, hsome, hline, rfl⟩
        · refine Or.inl ⟨by rw [hnone]; rfl, ?_⟩
          exact List.not_mem_cons_of_ne_of_not_mem (Ne.symm hnewline) hp
        · refine Or.inr ⟨x :: line, rest, by rw [hsome]; rfl, ?_, rfl⟩
          exact List.not_mem_cons_of_ne_of_not_mem (Ne.symm hnewline) hline

def Whole (line : List UInt8) : Prop := ∃ text, newline ∉ text ∧ line = text ++ [newline]

theorem lines_flatten {whole : List (List UInt8)} (h : ∀ line ∈ whole, Whole line) (input : List UInt8) :
    lines (whole.flatten ++ input) = whole ++ lines input := by
  induction whole with
  | nil => rfl
  | cons line whole ih =>
      obtain ⟨⟨text, htext, rfl⟩, hwhole⟩ := List.forall_mem_cons.mp h
      rw [List.flatten_cons, List.append_assoc, List.append_assoc, List.singleton_append, lines_append htext,
        ih hwhole, List.cons_append]

theorem matching_whole (pattern : List UInt8) (hline : newline ∉ line) :
    matching pattern (line ++ [newline]) = «match» pattern line := by
  rw [matching, takeWhile_append_newline hline]

theorem scan_eq (pattern : List UInt8) (hnull : 0 ∉ p) :
    ∃ (whole : List (List UInt8)) (left : List UInt8), p = whole.flatten ++ left ∧ (∀ line ∈ whole, Whole line) ∧
      newline ∉ left ∧ scan pattern p = (whole.filter (matching pattern), left) := by
  induction hsize : p.length using Nat.strong_induction_on generalizing p with | _ size ih
  rw [scan]
  rcases strchr_eq hnull with ⟨hnone, hp⟩ | ⟨line, rest, hsome, hline, rfl⟩
  · refine ⟨[], p, rfl, fun _ hmem => absurd hmem List.not_mem_nil, hp, ?_⟩
    split
    · rfl
    · next hq => exact absurd (hnone.symm.trans hq) (Option.some_ne_none _).symm
  · have hnull' : 0 ∉ rest := fun hmem => hnull (List.mem_append_right _ (List.mem_cons_of_mem _ hmem))
    have hsmaller : rest.length < size := by
      rw [← hsize, List.length_append, List.length_cons]
      omega
    obtain ⟨whole, left, hrest, hwhole, hleft, hscan⟩ := ih rest.length hsmaller hnull' rfl
    refine ⟨(line ++ [newline]) :: whole, left, ?_, List.forall_mem_cons.mpr ⟨⟨line, hline, rfl⟩, hwhole⟩, hleft, ?_⟩
    · rw [List.flatten_cons, List.append_assoc, List.append_assoc, ← hrest, List.singleton_append]
    · split
      · next hq => exact absurd (hsome.symm.trans hq) (Option.some_ne_none _)
      · next q hq =>
          obtain rfl := Option.some.inj (hsome.symm.trans hq)
          have hline' : (line ++ newline :: rest).take line.length = line := List.take_left
          have hwith : (line ++ newline :: rest).take (line.length + 1) = line ++ [newline] := by
            rw [List.take_length_add_append, List.take_succ_cons, List.take_zero]
          have hafter : (line ++ newline :: rest).drop (line.length + 1) = rest := by
            rw [List.drop_length_add_append, List.drop_succ_cons, List.drop_zero]
          rw [hline', hwith, hafter, hscan, List.filter_cons, matching_whole pattern hline]

theorem delivered_whole (h : Whole line) (hlength : line.length < bufSize) : delivered line = true := by
  obtain ⟨text, -, rfl⟩ := h
  exact decide_eq_true ⟨List.getLast?_concat, hlength⟩

theorem takeWhile_stuck (hkept : newline ∉ kept) (hend : input = [] ∨ bufSize ≤ kept.length + 1) :
    (lines (kept ++ input)).takeWhile delivered = [] := by
  by_cases hne : kept = []
  · have hinput : input = [] := hend.resolve_right fun hfull => by
      rw [hne] at hfull
      exact absurd hfull (by decide)
    rw [hne, hinput]
    rfl
  · obtain ⟨line, rest, hlines, hnil⟩ := head_lines hkept hne input
    have hnot : ¬(delivered (kept ++ line) = true) := by
      intro hdelivered
      obtain ⟨hlast, hlength⟩ := of_decide_eq_true hdelivered
      have hline : line = [] := by
        rcases hend with hinput | hfull
        · exact hnil hinput
        · rw [List.length_append] at hlength
          exact List.length_eq_zero_iff.mp (by omega)
      rw [hline, List.append_nil] at hlast
      exact hkept (List.mem_of_getLast? hlast)
    rw [hlines, List.takeWhile_cons_of_neg hnot]

theorem grepFrom_eq (pattern : List UInt8) (cuts : Nat → Nat) (reads : Nat)
    (hkept : newline ∉ kept) (hlength : kept.length < bufSize) (hnull : 0 ∉ kept ++ input) :
    grepFrom pattern cuts reads kept input =
      ((lines (kept ++ input)).takeWhile delivered).filter (matching pattern) := by
  induction hsize : input.length using Nat.strong_induction_on generalizing reads kept input with | _ size ih
  rw [grepFrom]
  split
  · next hchunk =>
      have hend : input = [] ∨ bufSize ≤ kept.length + 1 := by
        rcases List.take_eq_nil_iff.mp hchunk with hzero | hinput
        · exact Or.inr (by omega)
        · exact Or.inl hinput
      rw [takeWhile_stuck hkept hend]
      rfl
  · next hchunk =>
      set chunk := read (cuts reads) (bufSize - kept.length - 1) input with hread
      have hpos : 0 < chunk.length := List.length_pos_iff.mpr hchunk
      have hroom : chunk.length ≤ bufSize - kept.length - 1 := by
        rw [hread, read, List.length_take]
        omega
      have hsplit : chunk ++ input.drop chunk.length = input :=
        (List.prefix_iff_eq_append.mp (List.take_prefix _ _))
      have hbuf : 0 ∉ kept ++ chunk := by
        rw [← hsplit, ← List.append_assoc] at hnull
        exact fun hmem => hnull (List.mem_append_left _ hmem)
      obtain ⟨whole, left, hparts, hwhole, hleft, hscan⟩ := scan_eq pattern hbuf
      have hshort : whole.flatten.length + left.length < bufSize := by
        rw [← List.length_append, ← hparts, List.length_append]
        omega
      have hall : kept ++ input = whole.flatten ++ (left ++ input.drop chunk.length) := by
        rw [← List.append_assoc, ← hparts, List.append_assoc, hsplit]
      have hdelivered : ∀ line ∈ whole, delivered line = true := fun line hmem =>
        delivered_whole (hwhole line hmem) (Nat.lt_of_le_of_lt (List.sublist_flatten_of_mem hmem).length_le (by omega))
      have hsmaller : (input.drop chunk.length).length < size := by
        rw [← hsize, ← congrArg List.length hsplit, List.length_append]
        omega
      have hrest := ih _ hsmaller (reads + 1) hleft (by omega) (fun hmem => hnull (hall ▸ List.mem_append_right _ hmem)) rfl
      rw [hscan]
      dsimp only
      rw [hrest, hall, lines_flatten hwhole, List.takeWhile_append_of_pos hdelivered, List.filter_append]

theorem grep_eq (pattern : List UInt8) (cuts : Nat → Nat) (hnull : 0 ∉ input) :
    grep pattern cuts input = ((lines input).takeWhile delivered).filter (matching pattern) :=
  grepFrom_eq pattern cuts 0 List.not_mem_nil (Nat.succ_pos _) hnull

/-- **Which inputs grep is right on.** For each way of cutting the input, `grep` prints exactly the matching lines if
and only if none of the lines it does not get to matches. -/
theorem grep_prints_iff (pattern : List UInt8) (cuts : Nat → Nat) (hnull : 0 ∉ input) :
    grep pattern cuts input = (lines input).filter (matching pattern) ↔
      ∀ line ∈ dropped input, matching pattern line = false := by
  have hparts : (lines input).filter (matching pattern) =
      ((lines input).takeWhile delivered).filter (matching pattern) ++ (dropped input).filter (matching pattern) := by
    rw [dropped, ← List.filter_append, List.takeWhile_append_dropWhile]
  rw [grep_eq pattern cuts hnull, hparts, List.self_eq_append_right, List.filter_eq_nil_iff]
  exact forall₂_congr fun line _ => iff_of_eq (Bool.not_eq_true _)

theorem grep_prints_iff_short :
    grep [97] id [97, 10, 98] = (lines [97, 10, 98]).filter (matching [97]) ↔
      ∀ line ∈ dropped [97, 10, 98], matching [97] line = false :=
  grep_prints_iff [97] id (by decide)

/-- A last line without a newline is not printed, whatever it is. -/
theorem grep_drops_last : grep [] id [97] ≠ (lines [97]).filter (matching []) := by
  have hmatching : matching [] [97] = true := by
    change matchFrom [] [97] = true
    rw [matchFrom, matchhere]
    rfl
  have hlines : (lines [97]).takeWhile delivered = [] := rfl
  rw [grep_eq [] id (by decide), hlines]
  change [] ≠ List.filter (matching []) [[97]]
  rw [List.filter_cons_of_pos hmatching]
  exact (List.cons_ne_nil _ _).symm

end Lines

end Xv6.Grep
