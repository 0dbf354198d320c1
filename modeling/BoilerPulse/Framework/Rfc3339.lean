import Mathlib.Data.List.DropRight
import BoilerPulse.Framework.Decimal

/-!
# Instants in RFC 3339

An instant is a number of nanoseconds since 1970, in UTC. `format` writes it as
`2006-01-02T15:04:05.999999999Z`, without the trailing zeros of the fraction, and `parse` reads
any such text, other zones included.

Days are counted in years that start in March (`civil`, `dayNumber`): the leap day is then
the last one, and the years of a century, the centuries of an era of 400 years and the months of
a year can each be found by a division. The count starts one era before year `0`, so that it is
not negative for any year of four digits.

`parse_format` is the round trip, for the instants of those years (`InRange`).
-/

namespace Framework
namespace Rfc3339

open Decimal

/-! ### The calendar -/

/-- A date of the calendar, with the year counted from `-400`. -/
structure Date where
  year : ℕ
  month : ℕ
  day : ℕ
  deriving DecidableEq, Repr

def daysPerEra : ℕ := 146097

/-- Year of the era and day of the year, in years that start in March. -/
def yearOfEra (doe : ℕ) : ℕ × ℕ :=
  let century := min 3 (doe / 36524)
  let r := doe - 36524 * century
  let block := r / 1461
  let r := r - 1461 * block
  let year := min 3 (r / 365)
  (100 * century + 4 * block + year, r - 365 * year)

/-- Month and day, of a day in a year that starts in March. -/
def monthOfYear (doy : ℕ) : ℕ × ℕ :=
  let month := (5 * doy + 2) / 153
  (month, doy - (153 * month + 2) / 5 + 1)

def civil (n : ℕ) : Date :=
  let y := yearOfEra (n % daysPerEra)
  let m := monthOfYear y.2
  if m.1 < 10 then ⟨y.1 + 400 * (n / daysPerEra), m.1 + 3, m.2⟩
  else ⟨y.1 + 400 * (n / daysPerEra) + 1, m.1 - 9, m.2⟩

/-- The number of days before a month of a year that starts in March. -/
def daysBefore (year month : ℕ) : ℕ :=
  daysPerEra * (year / 400) + 365 * (year % 400) + year % 400 / 4 - year % 400 / 100 +
    (153 * month + 2) / 5

def dayNumber (d : Date) : ℕ :=
  (if d.month ≤ 2 then daysBefore (d.year - 1) (d.month + 9)
    else daysBefore d.year (d.month - 3)) + d.day - 1

theorem yearOfEra_spec {doe : ℕ} (h : doe < daysPerEra) :
    (yearOfEra doe).1 < 400 ∧ (yearOfEra doe).2 < 366 ∧
      365 * (yearOfEra doe).1 + (yearOfEra doe).1 / 4 - (yearOfEra doe).1 / 100 + (yearOfEra doe).2
        = doe := by
  simp only [daysPerEra] at h
  simp only [yearOfEra]
  -- each remainder is bounded before the next division
  have hr : doe - 36524 * min 3 (doe / 36524) < 36525 := by omega
  have hcentury : min 3 (doe / 36524) ≤ 3 := by omega
  have hdoe : 36524 * min 3 (doe / 36524) ≤ doe := by omega
  generalize min 3 (doe / 36524) = century at *
  generalize hrest : doe - 36524 * century = r at *
  have hblock : r / 1461 ≤ 24 := by omega
  have hr' : r - 1461 * (r / 1461) < 1461 := by omega
  have hrle : 1461 * (r / 1461) ≤ r := by omega
  generalize r / 1461 = block at *
  generalize hrest' : r - 1461 * block = q at *
  have hyear : min 3 (q / 365) ≤ 3 := by omega
  have hday : q - 365 * min 3 (q / 365) < 366 := by omega
  have hqle : 365 * min 3 (q / 365) ≤ q := by omega
  generalize min 3 (q / 365) = year at *
  have hfour : (100 * century + 4 * block + year) / 4 = 25 * century + block := by omega
  have hhundred : (100 * century + 4 * block + year) / 100 = century := by omega
  rw [hfour, hhundred]
  omega

theorem monthOfYear_spec {doy : ℕ} (h : doy < 366) :
    (monthOfYear doy).1 < 12 ∧ 1 ≤ (monthOfYear doy).2 ∧ (monthOfYear doy).2 < 32 ∧
      (153 * (monthOfYear doy).1 + 2) / 5 + (monthOfYear doy).2 = doy + 1 := by
  simp only [monthOfYear]
  omega

theorem dayNumber_civil (n : ℕ) : dayNumber (civil n) = n := by
  obtain ⟨hyear, hdoy, hdoe⟩ := yearOfEra_spec (Nat.mod_lt n (by decide : 0 < daysPerEra))
  obtain ⟨hmonth, hday, -, hsum⟩ := monthOfYear_spec hdoy
  have hn := Nat.div_add_mod n daysPerEra
  simp only [civil]
  generalize yearOfEra (n % daysPerEra) = y at *
  generalize monthOfYear y.2 = m at *
  have hdiv : (y.1 + 400 * (n / daysPerEra)) / 400 = n / daysPerEra := by omega
  have hmod : (y.1 + 400 * (n / daysPerEra)) % 400 = y.1 := by omega
  have hbefore : daysBefore (y.1 + 400 * (n / daysPerEra)) m.1 + m.2 - 1 = n := by
    rw [daysBefore, hdiv, hmod]
    omega
  split
  · next h => simpa [dayNumber] using hbefore
  · next h =>
    have hback : m.1 - 9 + 9 = m.1 := by omega
    simpa [dayNumber, hback, show m.1 - 9 ≤ 2 by omega] using hbefore

/-- The fields of a date of year `0` to `9999`. -/
theorem civil_bounds {n : ℕ} (h0 : 146037 ≤ n) (h : n < 3798462) :
    400 ≤ (civil n).year ∧ (civil n).year < 10400 ∧ (civil n).month < 100 ∧
      (civil n).day < 100 := by
  obtain ⟨hyear, hdoy, hdoe⟩ := yearOfEra_spec (Nat.mod_lt n (by decide : 0 < daysPerEra))
  obtain ⟨hmonth, hday, hday', hsum⟩ := monthOfYear_spec hdoy
  simp only [civil]
  have hm : (monthOfYear (yearOfEra (n % daysPerEra)).2).1 =
      (5 * (yearOfEra (n % daysPerEra)).2 + 2) / 153 := rfl
  generalize yearOfEra (n % daysPerEra) = y at *
  generalize monthOfYear y.2 = m at *
  simp only [daysPerEra] at *
  -- only the last year of an era reaches into the next one
  have hlast : y.1 ≤ 398 ∨ y.1 = 399 := by omega
  have hera : n / 146097 = 0 ∨ 1 ≤ n / 146097 := by omega
  split
  · dsimp only
    rcases hlast with hlast | hlast <;> rcases hera with hera | hera <;> omega
  · dsimp only
    rcases hlast with hlast | hlast <;> omega

/-! ### Writing -/

def nanosPerSecond : ℕ := 1000000000

def nanosPerDay : ℕ := 86400 * nanosPerSecond

/-- The day of the instant `0`. -/
def epochDay : ℕ := 865565

/-- The years `0000` to `9999`. -/
def InRange (t : ℤ) : Prop :=
  -62167219200 * (nanosPerSecond : ℤ) ≤ t ∧ t < 253402300800 * (nanosPerSecond : ℤ)

instance (t : ℤ) : Decidable (InRange t) :=
  inferInstanceAs (Decidable (_ ∧ _))

def dayOf (t : ℤ) : ℕ :=
  (t / nanosPerDay + epochDay).toNat

/-- The nanoseconds since midnight. -/
def nanosOf (t : ℤ) : ℕ :=
  (t % nanosPerDay).toNat

def dash : UInt8 := 0x2D

def colon : UInt8 := 0x3A

def dot : UInt8 := 0x2E

def dateText (d : Date) : List UInt8 :=
  fixed 4 (d.year - 400) ++ dash :: (fixed 2 d.month ++ dash :: fixed 2 d.day)

def clockText (seconds : ℕ) : List UInt8 :=
  fixed 2 (seconds / 3600) ++
    colon :: (fixed 2 (seconds / 60 % 60) ++ colon :: fixed 2 (seconds % 60))

def fractionText (nanos : ℕ) : List UInt8 :=
  if nanos = 0 then [] else dot :: (fixed 9 nanos).rdropWhile (· == 0x30)

def format (t : ℤ) : List UInt8 :=
  dateText (civil (dayOf t)) ++ 0x54 :: (clockText (nanosOf t / nanosPerSecond) ++
    (fractionText (nanosOf t % nanosPerSecond) ++ [0x5A]))

theorem ascii_format (t : ℤ) : ∀ b ∈ format t, b < 0x80 := by
  have hfraction : ∀ n, ∀ b ∈ fractionText n, b < 0x80 := by
    intro n b hb
    rw [fractionText] at hb
    split at hb
    · cases hb
    · rcases List.mem_cons.mp hb with rfl | hb
      · decide
      · exact ascii_fixed b ((List.rdropWhile_prefix _ _).subset hb)
  intro b hb
  simp only [format, dateText, clockText, List.mem_append, List.mem_cons, List.not_mem_nil,
    or_false] at hb
  rcases hb with (h | rfl | h | rfl | h) | rfl | (h | rfl | h | rfl | h) | h | rfl
  all_goals first | exact ascii_fixed b h | exact hfraction _ b h | decide

/-! ### Reading -/

def expect (c : UInt8) : List UInt8 → Option (List UInt8)
  | [] => none
  | b :: s => if b = c then some s else none

/-- A date that the calendar has. -/
def readDate (s : List UInt8) : Option (ℕ × List UInt8) := do
  let (year, s) ← takeFixed 4 s
  let s ← expect dash s
  let (month, s) ← takeFixed 2 s
  let s ← expect dash s
  let (day, s) ← takeFixed 2 s
  let date : Date := ⟨year + 400, month, day⟩
  if civil (dayNumber date) = date then some (dayNumber date, s) else none

/-- Hours, minutes and seconds, in seconds. -/
def readClock (s : List UInt8) : Option (ℕ × List UInt8) := do
  let (hours, s) ← takeFixed 2 s
  let s ← expect colon s
  let (minutes, s) ← takeFixed 2 s
  let s ← expect colon s
  let (seconds, s) ← takeFixed 2 s
  if hours < 24 ∧ minutes < 60 ∧ seconds < 60 then
    some (hours * 3600 + minutes * 60 + seconds, s)
  else none

/-- A fraction, of which nine digits count; or none. -/
def readFraction (s : List UInt8) : Option (ℕ × List UInt8) :=
  match s with
  | [] => some (0, [])
  | b :: s =>
    if b = dot then
      let digits := (s.takeWhile isDigit).take 9
      if digits = [] then none
      else (readNat (digits ++ List.replicate (9 - digits.length) 0x30)).map fun n =>
        (n, s.dropWhile isDigit)
    else some (0, b :: s)

/-- `Z`, or an offset, in seconds. -/
def readZone (s : List UInt8) : Option ℤ :=
  match s with
  | [] => none
  | b :: s =>
    if b = 0x5A then if s = [] then some 0 else none
    else do
      let (hours, s) ← takeFixed 2 s
      let s ← expect colon s
      let (minutes, s) ← takeFixed 2 s
      if s = [] ∧ hours < 24 ∧ minutes < 60 then
        if b = 0x2B then some (hours * 3600 + minutes * 60)
        else if b = dash then some (-(hours * 3600 + minutes * 60))
        else none
      else none

def parse (s : List UInt8) : Option ℤ := do
  let (day, s) ← readDate s
  let s ← expect 0x54 s
  let (seconds, s) ← readClock s
  let (nanos, s) ← readFraction s
  let offset ← readZone s
  some ((((day : ℤ) - epochDay) * 86400 + seconds - offset) * nanosPerSecond + nanos)

/-! ### There and back -/

@[simp] theorem expect_cons (c : UInt8) (s : List UInt8) : expect c (c :: s) = some s :=
  if_pos rfl

theorem readDate_dateText {n : ℕ} (h0 : 146037 ≤ n) (h : n < 3798462) (rest : List UInt8) :
    readDate (dateText (civil n) ++ rest) = some (n, rest) := by
  obtain ⟨hlow, hhigh, hmonth, hday⟩ := civil_bounds h0 h
  have hdate : (⟨(civil n).year - 400 + 400, (civil n).month, (civil n).day⟩ : Date) = civil n := by
    rw [Nat.sub_add_cancel hlow]
  have hyear : (civil n).year - 400 < 10 ^ 4 := by omega
  simp only [readDate, dateText, List.append_assoc, List.cons_append, Option.bind_eq_bind,
    takeFixed_append (by decide : 0 < 4) hyear, takeFixed_append (by decide : 0 < 2) hmonth,
    takeFixed_append (by decide : 0 < 2) hday, expect_cons, Option.bind_some, hdate,
    dayNumber_civil, if_true]

theorem readClock_clockText {seconds : ℕ} (h : seconds < 86400) (rest : List UInt8) :
    readClock (clockText seconds ++ rest) = some (seconds, rest) := by
  have hhours : seconds / 3600 < 10 ^ 2 := by omega
  have hminutes : seconds / 60 % 60 < 10 ^ 2 := by omega
  have hseconds : seconds % 60 < 10 ^ 2 := by omega
  have hsum : seconds / 3600 * 3600 + seconds / 60 % 60 * 60 + seconds % 60 = seconds := by omega
  have hvalid : seconds / 3600 < 24 ∧ seconds / 60 % 60 < 60 ∧ seconds % 60 < 60 := by omega
  simp only [readClock, clockText, List.append_assoc, List.cons_append, Option.bind_eq_bind,
    takeFixed_append (by decide : 0 < 2) hhours, takeFixed_append (by decide : 0 < 2) hminutes,
    takeFixed_append (by decide : 0 < 2) hseconds, expect_cons, Option.bind_some, if_pos hvalid,
    hsum]

/-- The zeros that were left out are put back. -/
theorem rdropWhile_append_replicate (l : List UInt8) : l.rdropWhile (· == 0x30) ++
      List.replicate (l.length - (l.rdropWhile (· == 0x30)).length) 0x30 = l := by
  induction l using List.reverseRecOn with
  | nil => rfl
  | append_singleton l b ih =>
    by_cases hb : b = 0x30
    · subst hb
      rw [List.rdropWhile_concat_pos _ _ _ (by rfl), List.length_append, List.length_singleton]
      have hle : (l.rdropWhile (· == 0x30)).length ≤ l.length :=
        (List.rdropWhile_prefix _ l).length_le
      rw [Nat.succ_sub hle, List.replicate_succ', ← List.append_assoc, ih]
    · rw [List.rdropWhile_concat_neg _ _ _ (by simpa using hb)]
      simp

theorem readFraction_fractionText {nanos : ℕ} (h : nanos < nanosPerSecond) {b : UInt8}
    (hdigit : isDigit b = false) (hdot : b ≠ dot) (rest : List UInt8) :
    readFraction (fractionText nanos ++ b :: rest) = some (nanos, b :: rest) := by
  rw [fractionText]
  split
  · next hzero =>
    rw [List.nil_append, readFraction, if_neg hdot, hzero]
  · next hne =>
    have hread := readNat_fixed (by decide : 0 < 9) h
    have hback := rdropWhile_append_replicate (fixed 9 nanos)
    have hall : ∀ c ∈ (fixed 9 nanos).rdropWhile (· == 0x30), isDigit c = true := fun c hc =>
      List.all_eq_true.mp (all_isDigit_fixed 9 nanos) c ((List.rdropWhile_prefix _ _).subset hc)
    have hlen : ((fixed 9 nanos).rdropWhile (· == 0x30)).length ≤ 9 :=
      (List.rdropWhile_prefix _ _).length_le.trans_eq (length_fixed 9 nanos)
    rw [length_fixed] at hback
    generalize (fixed 9 nanos).rdropWhile (· == 0x30) = ds at *
    have htake : (ds ++ b :: rest).takeWhile isDigit = ds := by
      rw [List.takeWhile_append_of_pos hall, List.takeWhile_cons_of_neg (by simp [hdigit]),
        List.append_nil]
    have hdrop : (ds ++ b :: rest).dropWhile isDigit = b :: rest := by
      rw [List.dropWhile_append_of_pos hall, List.dropWhile_cons_of_neg (by simp [hdigit])]
    have hnil : ds ≠ [] := by
      -- nine zeros are the fraction `0`, which is not written
      rintro rfl
      refine hne (Option.some.inj (hread.symm.trans ?_))
      rw [← hback]
      rfl
    rw [List.cons_append, readFraction, if_pos rfl]
    simp only [htake, hdrop, List.take_of_length_le hlen, if_neg hnil, hback, hread,
      Option.map_some]

theorem dayOf_bounds {t : ℤ} (h : InRange t) : 146037 ≤ dayOf t ∧ dayOf t < 3798462 := by
  simp only [InRange, nanosPerSecond] at h
  simp only [dayOf, nanosPerDay, nanosPerSecond, epochDay]
  omega

/-- **An instant that is written is read back.** -/
theorem parse_format {t : ℤ} (h : InRange t) : parse (format t) = some t := by
  obtain ⟨hlow, hhigh⟩ := dayOf_bounds h
  have hnanos : nanosOf t < nanosPerDay := by
    simp only [nanosOf, nanosPerDay, nanosPerSecond]
    omega
  have hseconds : nanosOf t / nanosPerSecond < 86400 :=
    Nat.div_lt_of_lt_mul (by rw [Nat.mul_comm]; exact hnanos)
  have hfraction : nanosOf t % nanosPerSecond < nanosPerSecond := Nat.mod_lt _ (by decide)
  have hsum : (((dayOf t : ℤ) - epochDay) * 86400 + (nanosOf t / nanosPerSecond : ℕ) - 0) *
      nanosPerSecond + (nanosOf t % nanosPerSecond : ℕ) = t := by
    have hday : (dayOf t : ℤ) = t / nanosPerDay + epochDay := by
      have : (0 : ℤ) ≤ t / nanosPerDay + epochDay := by
        by_contra hneg
        have : dayOf t = 0 := Int.toNat_of_nonpos (by omega)
        omega
      exact Int.toNat_of_nonneg this
    have hrest : (nanosOf t : ℤ) = t % nanosPerDay :=
      Int.toNat_of_nonneg (Int.emod_nonneg t (by decide))
    simp only [nanosPerDay, nanosPerSecond] at *
    omega
  simp only [parse, format, readDate_dateText hlow hhigh, expect_cons, readClock_clockText hseconds,
    readFraction_fractionText hfraction (by decide : isDigit 0x5A = false) (by decide),
    Option.bind_eq_bind, Option.bind_some]
  exact congrArg some hsum

end Rfc3339
end Framework
