import Mathlib.Tactic.Ring
import SignalTree.Calendar.Text
import SignalTree.Proofs.Numeral.Digits
import SignalTree.Proofs.Text.Trim

/-!
# Calendar — moments are read back

Each number of a date is written with a fixed least width and read up to a fixed greatest one.
Only a year may have more digits than its width, and then it has a sign, which lifts the limit.

A leap second has a number of its own only at the end of a minute.  After any other second it has
the number of the second that follows, and it is read back as that second.

* `Calendar.Clock.IsSettled`, `Calendar.Clock.settled`: the times that have a text of their own, and
  the time of this kind that has the same text;
* `Calendar.readNumber_run`: a run of digits is read as one number;
* `Calendar.readDayNumbers_writeDay`, `Calendar.readClockNumbers_writeClock`: the two halves;
* `Calendar.readMoment_writeMoment`: what reading gives, in the short form and in the long one.
-/

namespace SignalTree
namespace Calendar

open Numeral (isDigit_of_mem_digits)

/-! ## Leap seconds -/

namespace Clock

/-- If the time is in a leap second, this is the one at the end of a minute. -/
def IsSettled (c : Clock) : Prop := secondNanos ≤ c.nano → c.second = 59

instance (c : Clock) : Decidable c.IsSettled := by
  unfold IsSettled; infer_instance

theorem valid_next {c : Clock} (h : ¬ c.IsSettled) :
    IsClock c.hour c.minute (c.second + 1) (c.nano - secondNanos) := by
  rcases c.valid with ⟨hhour, hminute, hsecond, hnano⟩
  rw [IsSettled, Classical.not_imp] at h
  refine ⟨hhour, hminute, ?_, ?_⟩ <;> omega

/-- A leap second that is not at the end of a minute becomes the second that follows. -/
def settled (c : Clock) : Clock :=
  if h : c.IsSettled then c
  else ⟨c.hour, c.minute, c.second + 1, c.nano - secondNanos, valid_next h⟩

variable {c : Clock}

theorem settled_of_isSettled (h : c.IsSettled) : c.settled = c := dif_pos h

theorem settled_eq_self_iff : c.settled = c ↔ c.IsSettled := by
  refine ⟨fun h => ?_, settled_of_isSettled⟩
  by_contra hleap
  have hsecond : c.second + 1 = c.second := by
    conv_rhs => rw [← h, settled, dif_neg hleap]
  exact Nat.succ_ne_self _ hsecond

end Clock

namespace Moment

def IsSettled (m : Moment) : Prop := m.clock.IsSettled

instance (m : Moment) : Decidable m.IsSettled := by
  unfold IsSettled; infer_instance

def settled (m : Moment) : Moment := ⟨m.day, m.clock.settled⟩

variable {m : Moment}

theorem settled_eq_self_iff : m.settled = m ↔ m.IsSettled := by
  rcases m with ⟨day, clock⟩
  rw [settled, IsSettled, Moment.mk.injEq, Clock.settled_eq_self_iff]
  exact and_iff_right rfl

end Moment

/-! ## Padded numbers -/

theorem isDigit_of_mem_padded {width n : Nat} {c : Char} (hc : c ∈ padded width n) :
    c.isDigit = true := by
  rcases List.mem_append.1 hc with hc | hc
  · exact Numeral.isDigit_of_mem_zeros hc
  · exact isDigit_of_mem_digits hc

theorem padded_ne_nil (width n : Nat) : padded width n ≠ [] := by
  simp [padded, Numeral.digits_ne_nil]

theorem value_padded (width n : Nat) : Numeral.value 0 (padded width n) = n := by
  simp only [padded]
  rw [Numeral.value_append, Numeral.value_zeros, Nat.mul_zero, Numeral.value_digits]

theorem length_padded {width n : Nat} (hw : 0 < width) (hn : n < 10 ^ width) :
    (padded width n).length = width := by
  have hle := (Numeral.length_digits_le_iff hw).2 hn
  simp only [padded, List.length_append, List.length_replicate]
  omega

theorem exists_padded_eq_cons (width n : Nat) :
    ∃ c rest, padded width n = c :: rest ∧ c.isDigit = true := by
  cases h : padded width n with
  | nil => exact absurd h (padded_ne_nil width n)
  | cons c rest => exact ⟨c, rest, rfl, isDigit_of_mem_padded (h ▸ List.mem_cons_self ..)⟩

theorem trimLeft_padded_append (width n : Nat) (rest : List Char) :
    Text.trimLeft (padded width n ++ rest) = padded width n ++ rest := by
  rcases exists_padded_eq_cons width n with ⟨c, ds, hcons, hc⟩
  rw [hcons, List.cons_append]
  exact Text.trimLeft_cons_of_not_blank (Text.isGraphic_of_isDigit hc).not_blank

/-! ## Numbers -/

/-- A run of digits is read as one number, if it ends where the reader's width does or before
another character. -/
theorem readNumber_run {most : Nat} {ds rest : List Char} (hne : ds ≠ [])
    (h : ∀ c ∈ ds, c.isDigit = true) (hlength : ds.length ≤ most)
    (hstop : ds.length = most ∨ ∀ c, rest.head? = some c → c.isDigit = false)
    (hmax : Numeral.value 0 ds ≤ Numeral.maxSigned) :
    readNumber most (ds ++ rest) = .ok (Numeral.value 0 ds, rest) := by
  have hrun : ((ds ++ rest).take most).takeWhile Char.isDigit = ds := by
    rw [List.take_append, List.take_of_length_le hlength]
    apply Text.takeWhile_run _ h
    intro c hc
    rcases hstop with hfull | hstop
    · simp [hfull] at hc
    · cases hleft : most - ds.length with
      | zero => simp [hleft] at hc
      | succ k =>
        cases rest with
        | nil => simp at hc
        | cons d rest => exact hstop c (by simpa [hleft] using hc)
  have hempty : ds.isEmpty = false := by simpa using hne
  simp only [readNumber, hrun, hempty, Bool.false_eq_true, if_false, if_neg (Nat.not_lt.2 hmax),
    List.drop_left]

/-- A number in its full width is read whatever follows. -/
theorem readNumber_padded {width n : Nat} (rest : List Char) (hw : 0 < width) (hn : n < 10 ^ width)
    (hmax : n ≤ Numeral.maxSigned) : readNumber width (padded width n ++ rest) = .ok (n, rest) := by
  have hlength := length_padded hw hn
  rw [readNumber_run (padded_ne_nil width n) (fun c hc => isDigit_of_mem_padded hc)
    (Nat.le_of_eq hlength)
    (Or.inl hlength) (by rwa [value_padded]), value_padded]

/-- A number before a mark is read in any width that holds it. -/
theorem readNumber_before_mark {width n most : Nat} {mark : Char} (rest : List Char)
    (hmark : mark.isDigit = false) (hlength : (padded width n).length ≤ most)
    (hmax : n ≤ Numeral.maxSigned) :
    readNumber most (padded width n ++ mark :: rest) = .ok (n, mark :: rest) := by
  have hstop : ∀ c, (mark :: rest).head? = some c → c.isDigit = false := by
    intro c hc
    cases hc
    exact hmark
  rw [readNumber_run (padded_ne_nil width n) (fun c hc => isDigit_of_mem_padded hc) hlength
    (Or.inr hstop) (by rwa [value_padded]), value_padded]

theorem readField_padded {least greatest n : Nat} (rest : List Char) (hleast : least ≤ n)
    (hgreatest : n ≤ greatest) (hn : n < 10 ^ 2) :
    readField least greatest (padded 2 n ++ rest) = .ok (n, rest) := by
  have hread : readNumber 2 (padded 2 n ++ rest) = .ok (n, rest) :=
    readNumber_padded rest (by decide) hn (Nat.le_of_lt (Nat.lt_of_lt_of_le hn (by decide)))
  simp [readField, trimLeft_padded_append, hread, hleast, hgreatest, bind, Except.bind]

/-! ## Years -/

/-- The range of a year. -/
def checkYear (p : Int × List Char) : Except Fault (Int × List Char) :=
  if -0x80000000 ≤ p.1 && p.1 < 0x80000000 then .ok p else .error .outOfRange

theorem checkYear_of_calendar {year : Int} (rest : List Char) (hlow : firstYear ≤ year)
    (hhigh : year ≤ lastYear) : checkYear (year, rest) = .ok (year, rest) := by
  simp only [firstYear, lastYear] at hlow hhigh
  apply if_pos
  rw [Bool.and_eq_true, decide_eq_true_eq, decide_eq_true_eq]
  omega

/-- What becomes of the number of a year, whatever its sign. -/
theorem bind_checkYear (sign : Nat → Int) {number : Except Fault (Nat × List Char)} {n : Nat}
    {rest : List Char} (h : number = .ok (n, rest)) :
    (do
      let (n, rest) ← number
      let (year, rest) ← Except.ok (sign n, rest)
      if -0x80000000 ≤ year && year < 0x80000000 then .ok (year, rest) else .error .outOfRange)
      = checkYear (sign n, rest) := by
  rw [h]
  rfl

theorem readYear_minus {signed rest : List Char} {n : Nat}
    (h : readNumber signed.length signed = .ok (n, rest)) :
    readYear ('-' :: signed) = checkYear (-(n : Int), rest) := by
  rw [readYear, Text.trimLeft_cons_of_not_blank (by decide)]
  exact bind_checkYear (fun n => -(n : Int)) h

theorem readYear_plus {signed rest : List Char} {n : Nat}
    (h : readNumber signed.length signed = .ok (n, rest)) :
    readYear ('+' :: signed) = checkYear ((n : Int), rest) := by
  rw [readYear, Text.trimLeft_cons_of_not_blank (by decide)]
  exact bind_checkYear (fun n => (n : Int)) h

theorem readYear_unsigned {c : Char} {cs rest : List Char} {n : Nat} (hc : c.isDigit = true)
    (h : readNumber 4 (c :: cs) = .ok (n, rest)) :
    readYear (c :: cs) = checkYear ((n : Int), rest) := by
  rw [readYear, Text.trimLeft_cons_of_not_blank (Text.isGraphic_of_isDigit hc).not_blank]
  split
  · rename_i heq
    rw [(List.cons.inj heq).1] at hc
    exact absurd hc (by decide)
  · rename_i heq
    rw [(List.cons.inj heq).1] at hc
    exact absurd hc (by decide)
  · exact bind_checkYear (fun n => (n : Int)) h

theorem readYear_writeYear {year : Int} (rest : List Char) (hlow : firstYear ≤ year)
    (hhigh : year ≤ lastYear) :
    readYear (writeYear year ++ '-' :: rest) = .ok (year, '-' :: rest) := by
  have hcheck := checkYear_of_calendar ('-' :: rest) hlow hhigh
  simp only [firstYear, lastYear] at hlow hhigh
  have hmax : year.natAbs ≤ Numeral.maxSigned :=
    Nat.le_trans (show year.natAbs ≤ 262143 by omega) (by decide)
  -- a signed year may take up all that is left of a text
  have hread : readNumber (padded 4 year.natAbs ++ '-' :: rest).length
      (padded 4 year.natAbs ++ '-' :: rest) = .ok (year.natAbs, '-' :: rest) :=
    readNumber_before_mark rest (by decide) (by simp) hmax
  rw [writeYear]
  split
  · rename_i hneg
    have hback : -(year.natAbs : Int) = year := by omega
    rw [List.cons_append, readYear_minus hread, hback, hcheck]
  · rename_i hneg
    have hback : (year.natAbs : Int) = year := by omega
    split
    · rw [List.cons_append, readYear_plus hread, hback, hcheck]
    · have hfour := readNumber_padded ('-' :: rest) (by decide)
        (show year.natAbs < 10 ^ 4 by omega) hmax
      rcases exists_padded_eq_cons 4 year.natAbs with ⟨c, ds, hcons, hc⟩
      rw [hcons, List.cons_append] at hfour ⊢
      rw [readYear_unsigned hc hfour, hback, hcheck]

/-! ## Days and times of day -/

theorem readDayNumbers_writeDay (d : Day) (rest : List Char) :
    readDayNumbers (writeDay d ++ rest) = .ok ((d.year, d.month, d.day), rest) := by
  rcases d.valid with ⟨hlow, hhigh, hmonth, hmonth', hday, hday'⟩
  have hdays : daysIn d.year d.month ≤ 31 := by
    rw [daysIn]
    split
    · split <;> omega
    · split <;> omega
  have hyear := readYear_writeYear (padded 2 d.month ++ '-' :: (padded 2 d.day ++ rest)) hlow hhigh
  have hm := readField_padded ('-' :: (padded 2 d.day ++ rest)) hmonth hmonth' (by omega)
  have hd : readField 1 31 (padded 2 d.day ++ rest) = .ok (d.day, rest) :=
    readField_padded rest hday (by omega) (by omega)
  simp [readDayNumbers, writeDay, hyear, hm, hd, readMark, bind, Except.bind]

/-- A fraction in its full width at the end of a text. -/
theorem readFraction_padded {width n : Nat} (hw : 0 < width) (hw' : width ≤ 9)
    (hn : n < 10 ^ width) :
    readFraction ('.' :: padded width n) = .ok (n * 10 ^ (9 - width), []) := by
  have hmax : n ≤ Numeral.maxSigned := by
    have hpow : 10 ^ width ≤ 10 ^ 9 := Nat.pow_le_pow_right (by decide) hw'
    simp only [Numeral.maxSigned]
    omega
  have hlength := length_padded hw hn
  have hread : readNumber 9 (padded width n) = .ok (n, []) := by
    have hrun : readNumber 9 (padded width n ++ []) = _ :=
      readNumber_run (padded_ne_nil width n) (fun c hc => isDigit_of_mem_padded hc) (by omega)
        (Or.inr (by simp)) (by rwa [value_padded])
    rwa [List.append_nil, value_padded] at hrun
  simp [readFraction, hread, hlength, bind, Except.bind]

theorem readFraction_writeFraction {nano : Nat} (h : nano < secondNanos) :
    readFraction (writeFraction nano) = .ok (nano, []) := by
  rw [secondNanos] at h
  rw [writeFraction]
  split
  · rename_i hzero
    rw [hzero]
    rfl
  · split
    · rw [readFraction_padded (by decide) (by decide) (by omega),
        show nano / 1000000 * 10 ^ (9 - 3) = nano by omega]
    · split
      · rw [readFraction_padded (by decide) (by decide) (by omega),
          show nano / 1000 * 10 ^ (9 - 6) = nano by omega]
      · rw [readFraction_padded (by decide) (by decide) (by omega), Nat.sub_self, Nat.pow_zero,
          Nat.mul_one]

/-- The sixtieth second may be read, and it is only written in a leap second. -/
theorem readClockNumbers_writeClock (c : Clock) :
    readClockNumbers (writeClock c) = .ok ((c.hour, c.minute, c.second + c.nano / secondNanos,
      c.nano % secondNanos), []) := by
  rcases c.valid with ⟨hhour, hminute, hsecond, hnano⟩
  have hnumber : c.second + c.nano / secondNanos ≤ 60 := by
    have hquotient : c.nano / secondNanos < 2 := Nat.div_lt_of_lt_mul (by rwa [Nat.mul_comm])
    omega
  have hh : ∀ rest, readField 0 23 (padded 2 c.hour ++ rest) = .ok (c.hour, rest) := fun rest =>
    readField_padded rest (Nat.zero_le _) (by omega) (by omega)
  have hm : ∀ rest, readField 0 59 (padded 2 c.minute ++ rest) = .ok (c.minute, rest) :=
    fun rest => readField_padded rest (Nat.zero_le _) (by omega) (by omega)
  have hs : ∀ rest, readField 0 60 (padded 2 (c.second + c.nano / secondNanos) ++ rest)
      = .ok (c.second + c.nano / secondNanos, rest) :=
    fun rest => readField_padded rest (Nat.zero_le _) hnumber (by omega)
  have hfraction := readFraction_writeFraction (Nat.mod_lt c.nano (by decide : 0 < secondNanos))
  simp [readClockNumbers, writeClock, hh, hm, hs, hfraction, readMark, bind, Except.bind]

theorem Day.ofNumbers_self (d : Day) : Day.ofNumbers (d.year, d.month, d.day) = .ok d := by
  simp [Day.ofNumbers, d.valid]

theorem Clock.ofNumbers_eq_ok {hour minute number fraction second nano : Nat}
    (hsecond : (if number = 60 then 59 else number) = second)
    (hnano : (if number = 60 then secondNanos + fraction else fraction) = nano)
    (h : IsClock hour minute second nano) :
    Clock.ofNumbers (hour, minute, number, fraction) = .ok ⟨hour, minute, second, nano, h⟩ := by
  subst hsecond hnano
  exact dif_pos h

/-- A time is made of its numbers again, if it is settled. -/
theorem Clock.ofNumbers_settled (c : Clock) :
    Clock.ofNumbers (c.hour, c.minute, c.second + c.nano / secondNanos, c.nano % secondNanos)
      = .ok c.settled := by
  rcases c.valid with ⟨_, _, hsecond, hnano⟩
  by_cases hleap : secondNanos ≤ c.nano
  · have hnumber : c.nano / secondNanos = 1 := Nat.div_eq_of_lt_le (by omega) (by omega)
    have hfraction : c.nano % secondNanos = c.nano - secondNanos := by
      rw [Nat.mod_eq_sub_mod hleap, Nat.mod_eq_of_lt (by omega)]
    rw [hnumber, hfraction]
    by_cases hlast : c.second = 59
    · -- the sixtieth second
      rw [settled_of_isSettled fun _ => hlast]
      exact ofNumbers_eq_ok (by simp [hlast]) (by simp [hlast]; omega) c.valid
    · have hsettled : ¬ c.IsSettled := fun h => hlast (h hleap)
      rw [settled, dif_neg hsettled]
      exact ofNumbers_eq_ok (if_neg (by omega)) (if_neg (by omega)) (valid_next hsettled)
  · have hnumber : c.nano / secondNanos = 0 := Nat.div_eq_of_lt (by omega)
    have hfraction : c.nano % secondNanos = c.nano := Nat.mod_eq_of_lt (by omega)
    rw [hnumber, hfraction, settled_of_isSettled fun h => absurd h hleap]
    exact ofNumbers_eq_ok (if_neg (by omega)) (if_neg (by omega)) c.valid

/-! ## Moments -/

theorem readDay_writeDay (d : Day) : readDay (writeDay d) = .ok d := by
  have hnumbers := readDayNumbers_writeDay d []
  rw [List.append_nil] at hnumbers
  simp [readDay, hnumbers, readEnd, Day.ofNumbers_self, bind, Except.bind]

theorem readLong_writeDay (d : Day) : readLong (writeDay d) = .error .tooShort := by
  have hnumbers := readDayNumbers_writeDay d []
  rw [List.append_nil] at hnumbers
  simp [readLong, hnumbers, readMark, bind, Except.bind]

/-- What is written is read back with its leap second settled. -/
theorem readMoment_writeMoment (m : Moment) : readMoment (writeMoment m) = .ok m.settled := by
  by_cases hclock : m.clock = midnight
  · have hstart : m.day.start = m.settled := by
      rw [Moment.settled, hclock]
      rfl
    rw [writeMoment, if_pos hclock, readMoment, readLong_writeDay]
    simp [readDay_writeDay, Except.map, hstart]
  · have hlong : readLong (writeDay m.day ++ 'T' :: writeClock m.clock) = .ok m.settled := by
      simp [readLong, readDayNumbers_writeDay, readMark, readClockNumbers_writeClock, readEnd,
        Day.ofNumbers_self, Clock.ofNumbers_settled, Moment.settled, bind, Except.bind]
    rw [writeMoment, if_neg hclock, readMoment, hlong]

/-! ## Characters -/

theorem graphic_of_mem_padded {width n : Nat} {c : Char} (hc : c ∈ padded width n) :
    Text.IsGraphic c := Text.isGraphic_of_isDigit (isDigit_of_mem_padded hc)

theorem graphic_of_mem_writeYear {year : Int} {c : Char} (hc : c ∈ writeYear year) :
    Text.IsGraphic c := by
  rw [writeYear] at hc
  split at hc
  · rcases List.mem_cons.1 hc with rfl | hc
    · decide
    · exact graphic_of_mem_padded hc
  · split at hc
    · rcases List.mem_cons.1 hc with rfl | hc
      · decide
      · exact graphic_of_mem_padded hc
    · exact graphic_of_mem_padded hc

theorem graphic_of_mem_writeDay {day : Day} {c : Char} (hc : c ∈ writeDay day) :
    Text.IsGraphic c := by
  simp only [writeDay, List.mem_append, List.mem_cons] at hc
  rcases hc with hc | rfl | hc | rfl | hc
  · exact graphic_of_mem_writeYear hc
  · decide
  · exact graphic_of_mem_padded hc
  · decide
  · exact graphic_of_mem_padded hc

theorem graphic_of_mem_writeFraction {nano : Nat} {c : Char} (hc : c ∈ writeFraction nano) :
    Text.IsGraphic c := by
  -- whatever its width, a fraction is a point with digits after it
  have hpoint : ∀ width n, c ∈ '.' :: padded width n → Text.IsGraphic c := by
    intro width n hmem
    rcases List.mem_cons.1 hmem with rfl | hmem
    · decide
    · exact graphic_of_mem_padded hmem
  rw [writeFraction] at hc
  split at hc
  · cases hc
  · split at hc
    · exact hpoint _ _ hc
    · split at hc
      · exact hpoint _ _ hc
      · exact hpoint _ _ hc

theorem graphic_of_mem_writeMoment {m : Moment} {c : Char} (hc : c ∈ writeMoment m) :
    Text.IsGraphic c := by
  rw [writeMoment] at hc
  split at hc
  · exact graphic_of_mem_writeDay hc
  · simp only [writeClock, List.mem_append, List.mem_cons] at hc
    rcases hc with hc | rfl | hc | rfl | hc | rfl | hc | hc
    · exact graphic_of_mem_writeDay hc
    · decide
    · exact graphic_of_mem_padded hc
    · decide
    · exact graphic_of_mem_padded hc
    · decide
    · exact graphic_of_mem_padded hc
    · exact graphic_of_mem_writeFraction hc

end Calendar
end SignalTree
