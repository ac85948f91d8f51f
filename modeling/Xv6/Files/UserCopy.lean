import Xv6.Storage.Kernel

/-!
# What a user copy moves

A copy between the kernel and a process goes on up to the first byte that is not mapped. What it has
moved by then it does not take back.
-/

namespace Xv6.Kernel

abbrev Pages := Nat → Option (Nat → UInt8)

def userByte (pages : Pages) (va : Nat) : Option UInt8 :=
  (pages (va / pgsize)).map fun page => page (va % pgsize)

/-- How many of the bytes from `va` on are mapped, up to the first that is not. -/
def reach (pages : Pages) : (count va : Nat) → Nat
  | 0, _ => 0
  | count + 1, va => if (pages (va / pgsize)).isSome then reach pages count (va + 1) + 1 else 0

/-- The bytes `src` are in user memory from `dst` on, and the rest is as it was. -/
structure Copied (pages after : Pages) (dst count : Nat) (src : Nat → UInt8) : Prop where
  byte : ∀ va, userByte after va =
    if dst ≤ va ∧ va < dst + count then some (src (va - dst)) else userByte pages va
  mapped : ∀ page, (after page).isSome = (pages page).isSome

section Reach

variable {pages after : Pages} {count va : Nat}

theorem reach_le (pages : Pages) (count va : Nat) : reach pages count va ≤ count := by
  induction count generalizing va with
  | zero => exact Nat.le_refl 0
  | succ count ih =>
      rw [reach]
      split
      · exact Nat.succ_le_succ (ih _)
      · exact Nat.zero_le _

theorem reach_congr (h : ∀ page, (after page).isSome = (pages page).isSome) :
    reach after count va = reach pages count va := by
  induction count generalizing va with
  | zero => rfl
  | succ count ih => rw [reach, reach, h, ih]

theorem reach_eq_zero_iff : reach pages (count + 1) va = 0 ↔ pages (va / pgsize) = none := by
  rw [reach]
  cases pages (va / pgsize) with
  | none => exact iff_of_true rfl rfl
  | some page => exact iff_of_false (Nat.succ_ne_zero _) (by simp)

theorem reach_add (first rest : Nat) : reach pages (first + rest) va =
    if reach pages first va = first then first + reach pages rest (va + first) else reach pages first va := by
  induction first generalizing va with
  | zero => simp [reach]
  | succ first ih =>
      rw [Nat.succ_add, reach, reach]
      by_cases hpage : (pages (va / pgsize)).isSome
      · rw [if_pos hpage, if_pos hpage, ih]
        by_cases hfirst : reach pages first (va + 1) = first
        · rw [if_pos hfirst, if_pos (by omega), Nat.add_assoc va, Nat.add_comm 1]
          omega
        · rw [if_neg hfirst, if_neg (by omega)]
      · rw [if_neg hpage, if_neg hpage, if_neg (by omega)]

theorem reach_page (hpage : va % pgsize + count ≤ pgsize) :
    reach pages count va = if (pages (va / pgsize)).isSome then count else 0 := by
  induction count generalizing va with
  | zero => simp [reach]
  | succ count ih =>
      rw [reach]
      by_cases hmapped : (pages (va / pgsize)).isSome
      · rw [if_pos hmapped, if_pos hmapped]
        cases count with
        | zero => rfl
        | succ count =>
            have hdiv : (va + 1) / pgsize = va / pgsize := by
              simp only [pgsize] at *
              omega
            have hmod : (va + 1) % pgsize = va % pgsize + 1 := by
              simp only [pgsize] at *
              omega
            rw [ih (by omega), hdiv, if_pos hmapped]
      · rw [if_neg hmapped, if_neg hmapped]

end Reach

section Copied

variable {pages mid after : Pages} {dst count : Nat} {src : Nat → UInt8}

theorem Copied.refl (pages : Pages) (dst : Nat) (src : Nat → UInt8) : Copied pages pages dst 0 src where
  byte va := by rw [if_neg (by omega)]
  mapped _ := rfl

theorem Copied.trans {rest : Nat} {src' : Nat → UInt8} (h : Copied pages mid dst count src)
    (h' : Copied mid after (dst + count) rest src') (hsrc : ∀ i, i < rest → src' i = src (count + i)) :
    Copied pages after dst (count + rest) src where
  byte va := by
    rw [h'.byte, h.byte]
    by_cases hlast : dst + count ≤ va ∧ va < dst + count + rest
    · rw [if_pos hlast, if_pos (by omega), hsrc _ (by omega)]
      exact congrArg (fun i => some (src i)) (by omega)
    · rw [if_neg hlast]
      by_cases hfirst : dst ≤ va ∧ va < dst + count
      · rw [if_pos hfirst, if_pos (by omega)]
      · rw [if_neg hfirst, if_neg (by omega)]
  mapped page := (h'.mapped page).trans (h.mapped page)

theorem Copied.congr {src' : Nat → UInt8} (h : Copied pages after dst count src)
    (hsrc : ∀ i, i < count → src' i = src i) : Copied pages after dst count src' where
  byte va := by
    rw [h.byte]
    split
    · rw [hsrc _ (by omega)]
    · rfl
  mapped := h.mapped

end Copied

section Rounds

variable {pages : Pages} {va len count : Nat}

theorem reach_round (hcount : min (pgsize - va % pgsize) len = count) : reach pages len va =
    if (pages (va / pgsize)).isSome then count + reach pages (len - count) (va + count) else 0 := by
  have hmod := Nat.mod_lt va (show 0 < pgsize by decide)
  have hpage : reach pages count va = if (pages (va / pgsize)).isSome then count else 0 :=
    reach_page (by omega)
  have hsplit : len = count + (len - count) := by omega
  calc reach pages len va = reach pages (count + (len - count)) va := by rw [← hsplit]
    _ = if reach pages count va = count then count + reach pages (len - count) (va + count)
          else reach pages count va := reach_add _ _
    _ = _ := by
        rw [hpage]
        by_cases hmapped : (pages (va / pgsize)).isSome
        · rw [if_pos hmapped, if_pos hmapped, if_pos rfl]
        · rw [if_neg hmapped, if_neg hmapped]
          by_cases hzero : count = 0
          · have hlen : len - count = 0 := by omega
            rw [if_pos hzero.symm, hlen, hzero]
            rfl
          · rw [if_neg (Ne.symm hzero)]

theorem next_page (hcount : min (pgsize - va % pgsize) len = count) (hrest : len - count ≠ 0) :
    (va / pgsize + 1) * pgsize = va + count := by
  simp only [pgsize] at *
  omega

end Rounds

theorem archCopyin_spec {pages : Pages} {fuel srcva len : Nat} (hfuel : len ≤ fuel) :
    (archCopyin pages fuel srcva len).1.length = reach pages len srcva ∧
      (archCopyin pages fuel srcva len).2 = decide (reach pages len srcva = len) ∧
        ∀ i, i < reach pages len srcva →
          userByte pages (srcva + i) = some ((archCopyin pages fuel srcva len).1.getD i 0) := by
  induction fuel generalizing srcva len with
  | zero =>
      obtain rfl : len = 0 := by omega
      exact ⟨rfl, rfl, fun i hi => absurd hi (Nat.not_lt_zero i)⟩
  | succ fuel ih =>
      rw [archCopyin]
      by_cases hzero : len = 0
      · subst hzero
        exact ⟨rfl, rfl, fun i hi => absurd hi (Nat.not_lt_zero i)⟩
      · rw [if_neg hzero]
        generalize hcount : min (pgsize - srcva % pgsize) len = count
        have hmod := Nat.mod_lt srcva (show 0 < pgsize by decide)
        have hreach := @reach_round pages _ _ _ hcount
        cases hsource : pages (srcva / pgsize) with
        | none =>
            rw [hsource] at hreach
            have hnone : reach pages len srcva = 0 := hreach
            refine ⟨hnone.symm, ?_, fun i hi => absurd hi (by omega)⟩
            rw [hnone]
            exact (decide_eq_false (Ne.symm hzero)).symm
        | some page =>
            rw [hsource, Option.isSome_some, if_pos rfl] at hreach
            have hbyte : ∀ i, i < count → userByte pages (srcva + i) = some (page (srcva % pgsize + i)) := by
              intro i hi
              have hdiv : (srcva + i) / pgsize = srcva / pgsize := by
                simp only [pgsize] at *
                omega
              have hoff : (srcva + i) % pgsize = srcva % pgsize + i := by
                simp only [pgsize] at *
                omega
              rw [userByte, hdiv, hsource, hoff]
              rfl
            have hrest := @ih ((srcva / pgsize + 1) * pgsize) (len - count) (by omega)
            have hnext : len - count ≠ 0 → (srcva / pgsize + 1) * pgsize = srcva + count := next_page hcount
            dsimp only
            generalize archCopyin pages fuel ((srcva / pgsize + 1) * pgsize) (len - count) = rest at hrest ⊢
            obtain ⟨hlength, hok, hbytes⟩ := hrest
            have hsame : reach pages (len - count) ((srcva / pgsize + 1) * pgsize) =
                reach pages (len - count) (srcva + count) := by
              by_cases hend : len - count = 0
              · rw [hend]
                rfl
              · rw [hnext hend]
            rw [hsame] at hlength hok hbytes
            refine ⟨?_, ?_, ?_⟩
            · rw [hreach, List.length_append, List.length_map, List.length_range, hlength]
            · rw [hok, hreach]
              exact decide_eq_decide.mpr (by omega)
            · intro i hi
              rw [hreach] at hi
              by_cases hfirst : i < count
              · rw [hbyte i hfirst, List.getD_append _ _ _ _ (by simpa using hfirst)]
                simp [hfirst]
              · have hmany : len - count ≠ 0 := by
                  intro hend
                  rw [hend] at hi
                  exact hfirst hi
                have hlast := hbytes (i - count) (by omega)
                rw [hnext hmany, show srcva + count + (i - count) = srcva + i by omega] at hlast
                rw [hlast, List.getD_append_right _ _ _ _ (by simp; omega)]
                simp

theorem archCopyout_spec {pages : Pages} {fuel dstva : Nat} {bytes : List UInt8}
    (hfuel : bytes.length ≤ fuel) :
    (archCopyout fuel pages dstva bytes).2 = decide (reach pages bytes.length dstva = bytes.length) ∧
      Copied pages (archCopyout fuel pages dstva bytes).1 dstva (reach pages bytes.length dstva)
        fun i => bytes.getD i 0 := by
  induction fuel generalizing pages dstva bytes with
  | zero =>
      obtain rfl : bytes = [] := List.length_eq_zero_iff.mp (by omega)
      exact ⟨rfl, .refl _ _ _⟩
  | succ fuel ih =>
      rw [archCopyout]
      by_cases hzero : bytes = []
      · subst hzero
        exact ⟨rfl, .refl _ _ _⟩
      · have hpos : 0 < bytes.length := List.length_pos_iff.mpr hzero
        rw [if_neg (by simpa using hzero)]
        generalize hcount : min (pgsize - dstva % pgsize) bytes.length = count
        have hmod := Nat.mod_lt dstva (show 0 < pgsize by decide)
        have hreach := @reach_round pages _ _ _ hcount
        cases hdest : pages (dstva / pgsize) with
        | none =>
            rw [hdest] at hreach
            have hnone : reach pages bytes.length dstva = 0 := hreach
            rw [hnone]
            exact ⟨(decide_eq_false (by omega)).symm, .refl _ _ _⟩
        | some page =>
            rw [hdest, Option.isSome_some, if_pos rfl] at hreach
            dsimp only
            generalize hmid : Function.update pages (dstva / pgsize) (some fun i =>
              if dstva % pgsize ≤ i ∧ i < dstva % pgsize + count then bytes.getD (i - dstva % pgsize) 0
              else page i) = mid
            have hfirst : Copied pages mid dstva count fun i => bytes.getD i 0 := by
              rw [← hmid]
              refine ⟨fun va => ?_, fun other => ?_⟩
              · by_cases hva : va / pgsize = dstva / pgsize
                · have hrange : (dstva % pgsize ≤ va % pgsize ∧ va % pgsize < dstva % pgsize + count) ↔
                      (dstva ≤ va ∧ va < dstva + count) := by
                    simp only [pgsize] at *
                    omega
                  have hindex : dstva ≤ va → va % pgsize - dstva % pgsize = va - dstva := by
                    intro hle
                    simp only [pgsize] at *
                    omega
                  rw [userByte, userByte, hva, Function.update_self, hdest, Option.map_some, Option.map_some]
                  dsimp only
                  by_cases hin : dstva ≤ va ∧ va < dstva + count
                  · rw [if_pos hin, if_pos (hrange.mpr hin), hindex hin.1]
                  · rw [if_neg hin, if_neg (mt hrange.mp hin)]
                · have hout : ¬(dstva ≤ va ∧ va < dstva + count) := by
                    simp only [pgsize] at *
                    omega
                  rw [userByte, Function.update_of_ne hva, if_neg hout]
                  rfl
              · by_cases hother : other = dstva / pgsize
                · rw [hother, Function.update_self, hdest]
                  rfl
                · rw [Function.update_of_ne hother]
            have hdrop : (bytes.drop count).length = bytes.length - count := List.length_drop
            obtain ⟨hok, hcopied⟩ :=
              @ih mid ((dstva / pgsize + 1) * pgsize) (bytes.drop count) (by omega)
            have hnext : bytes.length - count ≠ 0 → (dstva / pgsize + 1) * pgsize = dstva + count :=
              next_page hcount
            have hsame : reach mid (bytes.length - count) ((dstva / pgsize + 1) * pgsize) =
                reach pages (bytes.length - count) (dstva + count) := by
              rw [reach_congr hfirst.mapped]
              by_cases hend : bytes.length - count = 0
              · rw [hend]
                rfl
              · rw [hnext hend]
            rw [hdrop, hsame] at hok hcopied
            refine ⟨?_, ?_⟩
            · rw [hok, hreach]
              exact decide_eq_decide.mpr (by omega)
            · rw [hreach]
              refine hfirst.trans (?_ : Copied mid _ (dstva + count) _ fun i => (bytes.drop count).getD i 0)
                fun i _ => by simp
              by_cases hend : bytes.length - count = 0
              · rw [hend] at hcopied ⊢
                exact ⟨fun va => by rw [hcopied.byte, if_neg (by simp only [reach]; omega),
                  if_neg (by simp only [reach]; omega)], hcopied.mapped⟩
              · rw [hnext hend] at hcopied ⊢
                exact hcopied

end Xv6.Kernel
