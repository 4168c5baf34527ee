import Mathlib.Tactic.Common

/-! The Gregorian calendar: the date of a day, and a time as the digits of its date and its clock. -/
namespace Calendar

/-- A date of the Gregorian calendar, its year counted from 400 years before the year 0. -/
structure CivilDate where
  year : Nat
  month : Nat
  day : Nat
deriving DecidableEq

namespace CivilDate

/-- Days before a year of an era of 400. The years begin in March, so that a leap day is the last day
of its year. -/
def yearStart (year : Nat) : Nat := 365 * year + year / 4 - year / 100

def yearOf (day : Nat) : Nat :=
  let century := min 3 (day / 36524)
  let rest := day - 36524 * century
  100 * century + 4 * (rest / 1461) + min 3 (rest % 1461 / 365)

/-- Days before a month of a year that begins in March. -/
def monthStart (month : Nat) : Nat := (153 * month + 2) / 5

def monthOf (day : Nat) : Nat := (5 * day + 2) / 153

/-- A date by its era of 400 years, and by the year, the month and the day of a year that begins in
March. -/
def marchDate (era year month day : Nat) : CivilDate where
  year := 400 * era + year + if month < 10 then 0 else 1
  month := if month < 10 then month + 3 else month - 9
  day := day + 1

def ofDays (n : Nat) : CivilDate :=
  let year := yearOf (n % 146097)
  let day := n % 146097 - yearStart year
  marchDate (n / 146097) year (monthOf day) (day - monthStart (monthOf day))

def toDays (date : CivilDate) : Nat :=
  let year := if date.month ≤ 2 then date.year - 1 else date.year
  let month := if date.month ≤ 2 then date.month + 9 else date.month - 3
  146097 * (year / 400) + yearStart (year % 400) + monthStart month + (date.day - 1)

theorem yearOf_bounds {day : Nat} (h : day < 146097) :
    yearOf day < 400 ∧ yearStart (yearOf day) ≤ day ∧ day ≤ yearStart (yearOf day) + 365 := by
  unfold yearOf
  extract_lets century rest
  have hcentury : century ≤ 3 ∧ day = 36524 * century + rest ∧ rest ≤ 36524 := by omega
  clear_value century rest
  have hquad : rest / 1461 ≤ 24 := by omega
  have hyear : min 3 (rest % 1461 / 365) ≤ 3 ∧ 365 * min 3 (rest % 1461 / 365) ≤ rest % 1461 ∧
      rest % 1461 ≤ 365 * min 3 (rest % 1461 / 365) + 365 := by omega
  have hrest := Nat.div_add_mod rest 1461
  generalize min 3 (rest % 1461 / 365) = year at hyear ⊢
  generalize rest / 1461 = quad at hquad hrest ⊢
  have hfour : (100 * century + 4 * quad + year) / 4 = 25 * century + quad := by omega
  have hhundred : (100 * century + 4 * quad + year) / 100 = century := by omega
  unfold yearStart
  rw [hfour, hhundred]
  omega

theorem monthOf_bounds {day : Nat} (h : day ≤ 365) :
    monthOf day ≤ 11 ∧ monthStart (monthOf day) ≤ day ∧ day ≤ monthStart (monthOf day) + 30 := by
  unfold monthOf monthStart
  omega

theorem toDays_marchDate {era year month day : Nat} (hyear : year < 400) (hmonth : month ≤ 11) :
    (marchDate era year month day).toDays =
      146097 * era + yearStart year + monthStart month + day := by
  unfold marchDate toDays
  by_cases hm : month < 10
  · have hlate : ¬ month + 3 ≤ 2 := by omega
    have hera : (400 * era + year) / 400 = era := by omega
    have hrest : (400 * era + year) % 400 = year := by omega
    simp [hm, hlate, hera, hrest]
  · have hearly : month - 9 ≤ 2 := by omega
    have hera : (400 * era + year) / 400 = era := by omega
    have hrest : (400 * era + year) % 400 = year := by omega
    have hback : month - 9 + 9 = month := by omega
    simp [hm, hearly, hera, hrest, hback]

theorem toDays_ofDays (n : Nat) : (ofDays n).toDays = n := by
  obtain ⟨hyear, hstart, hend⟩ := yearOf_bounds (Nat.mod_lt n (by decide : 146097 > 0))
  obtain ⟨hmonth, hfirst, -⟩ := monthOf_bounds (Nat.sub_le_iff_le_add'.mpr hend)
  have hera := Nat.div_add_mod n 146097
  unfold ofDays
  rw [toDays_marchDate hyear hmonth]
  omega

theorem ofDays_bounds {n : Nat} (hfirst : 146037 ≤ n) (hlast : n ≤ 3798461) :
    400 ≤ (ofDays n).year ∧ (ofDays n).year < 10400 ∧ (ofDays n).month < 100 ∧
      (ofDays n).day < 100 := by
  obtain ⟨hyear, hstart, hend⟩ := yearOf_bounds (Nat.mod_lt n (by decide : 146097 > 0))
  obtain ⟨hmonth, hday, hdays⟩ := monthOf_bounds (Nat.sub_le_iff_le_add'.mpr hend)
  have hera := Nat.div_add_mod n 146097
  dsimp only [ofDays, marchDate]
  generalize yearOf (n % 146097) = year at *
  generalize hd : n % 146097 - yearStart year = day at *
  generalize monthOf day = month at *
  have hwhole : yearStart year ≤ 145731 ∧ (year = 399 → yearStart year = 145731) ∧
      (year < 399 → yearStart year ≤ 145366) := by
    unfold yearStart
    omega
  by_cases hm : month < 10
  · have hbefore : monthStart month ≤ 275 := by
      unfold monthStart
      omega
    simp only [hm, if_true]
    omega
  · have hafter : 306 ≤ monthStart month := by
      unfold monthStart
      omega
    simp only [hm, if_false]
    omega

end CivilDate

def twoDigits (n : Nat) : List Char := [Nat.digitChar (n / 10), Nat.digitChar (n % 10)]

def readTwo : List Char → Option (Nat × List Char)
  | a :: b :: rest =>
    if a.isDigit && b.isDigit then some (10 * (a.toNat - 48) + (b.toNat - 48), rest) else none
  | _ => none

def readLiteral (c : Char) : List Char → Option (List Char)
  | a :: rest => if a = c then some rest else none
  | [] => none

theorem readTwo_twoDigits {n : Nat} (h : n < 100) (rest : List Char) :
    readTwo (twoDigits n ++ rest) = some (n, rest) := by
  have hdigits : ∀ n < 10, (Nat.digitChar n).isDigit = true ∧ (Nat.digitChar n).toNat - 48 = n := by
    decide
  obtain ⟨htens, htens'⟩ := hdigits (n / 10) (by omega)
  obtain ⟨hones, hones'⟩ := hdigits (n % 10) (by omega)
  simp only [twoDigits, List.cons_append, List.nil_append, readTwo, htens, hones, htens', hones']
  simp [Nat.div_add_mod]

theorem isDigit_of_mem_twoDigits {n : Nat} (h : n < 100) {c : Char} (hc : c ∈ twoDigits n) :
    c.isDigit = true := by
  have hdigits : ∀ n < 10, (Nat.digitChar n).isDigit = true := by decide
  simp only [twoDigits, List.mem_cons, List.not_mem_nil, or_false] at hc
  obtain rfl | rfl := hc
  · exact hdigits _ (by omega)
  · exact hdigits _ (by omega)

/-- Seconds from 1 March of 400 years before the year 0 to 1970. -/
def epoch : Nat := 74784816000

def chars (seconds : Nat) : List Char :=
  let date := CivilDate.ofDays (seconds / 86400)
  let time := seconds % 86400
  twoDigits ((date.year - 400) / 100) ++ (twoDigits ((date.year - 400) % 100) ++
    (twoDigits date.month ++ (twoDigits date.day ++ ('T' :: (twoDigits (time / 3600) ++
      (twoDigits (time / 60 % 60) ++ (twoDigits (time % 60) ++ ['Z'])))))))

def read (text : List Char) : Option Nat := do
  let (century, text) ← readTwo text
  let (year, text) ← readTwo text
  let (month, text) ← readTwo text
  let (day, text) ← readTwo text
  let text ← readLiteral 'T' text
  let (hour, text) ← readTwo text
  let (minute, text) ← readTwo text
  let (second, text) ← readTwo text
  let text ← readLiteral 'Z' text
  let date : CivilDate := ⟨100 * century + year + 400, month, day⟩
  if text.isEmpty && date = .ofDays date.toDays && hour < 24 && minute < 60 && second < 60 then
    some (86400 * date.toDays + (3600 * hour + 60 * minute + second))
  else none

theorem read_chars {n : Nat} (hfirst : 146037 ≤ n / 86400)
    (hlast : n / 86400 ≤ 3798461) : read (chars n) = some n := by
  obtain ⟨hyear, hyear', hmonth, hday⟩ := CivilDate.ofDays_bounds hfirst hlast
  have hdate : (⟨100 * (((CivilDate.ofDays (n / 86400)).year - 400) / 100) +
      ((CivilDate.ofDays (n / 86400)).year - 400) % 100 + 400, (CivilDate.ofDays (n / 86400)).month,
      (CivilDate.ofDays (n / 86400)).day⟩ : CivilDate) = .ofDays (n / 86400) := by
    have hback : 100 * (((CivilDate.ofDays (n / 86400)).year - 400) / 100) +
      ((CivilDate.ofDays (n / 86400)).year - 400) % 100 + 400 =
        (CivilDate.ofDays (n / 86400)).year := by omega
    rw [hback]
  have htime : 86400 * (n / 86400) + (3600 * (n % 86400 / 3600) + 60 * (n % 86400 / 60 % 60) +
      n % 86400 % 60) = n := by omega
  have hhour : n % 86400 / 3600 < 24 := by omega
  simp only [chars, read, Option.bind_eq_bind,
    readTwo_twoDigits (show ((CivilDate.ofDays (n / 86400)).year - 400) / 100 < 100 by omega),
    readTwo_twoDigits (show ((CivilDate.ofDays (n / 86400)).year - 400) % 100 < 100 by omega),
    readTwo_twoDigits hmonth, readTwo_twoDigits hday,
    readTwo_twoDigits (show n % 86400 / 3600 < 100 by omega),
    readTwo_twoDigits (show n % 86400 / 60 % 60 < 100 by omega),
    readTwo_twoDigits (show n % 86400 % 60 < 100 by omega), Option.bind_some, readLiteral, if_true,
    hdate, CivilDate.toDays_ofDays, htime]
  simp [hhour, Nat.mod_lt]

theorem days_bounds {secs : Int} (hfirst : -62167219200 ≤ secs) (hlast : secs ≤ 253402300799) :
    146037 ≤ (secs + epoch).toNat / 86400 ∧ (secs + epoch).toNat / 86400 ≤ 3798461 := by
  simp only [epoch]
  omega

theorem mem_chars {n : Nat} (hfirst : 146037 ≤ n / 86400) (hlast : n / 86400 ≤ 3798461) {c : Char}
    (hc : c ∈ chars n) : c.isDigit = true ∨ c = 'T' ∨ c = 'Z' := by
  obtain ⟨hyear, hyear', hmonth, hday⟩ := CivilDate.ofDays_bounds hfirst hlast
  simp only [chars, List.mem_append, List.mem_cons, List.not_mem_nil, or_false] at hc
  rcases hc with hc | hc | hc | hc | hc | hc | hc | hc | hc
  · exact .inl (isDigit_of_mem_twoDigits (by omega) hc)
  · exact .inl (isDigit_of_mem_twoDigits (by omega) hc)
  · exact .inl (isDigit_of_mem_twoDigits hmonth hc)
  · exact .inl (isDigit_of_mem_twoDigits hday hc)
  · exact .inr (.inl hc)
  · exact .inl (isDigit_of_mem_twoDigits (by omega) hc)
  · exact .inl (isDigit_of_mem_twoDigits (by omega) hc)
  · exact .inl (isDigit_of_mem_twoDigits (by omega) hc)
  · exact .inr (.inr hc)

example : String.ofList (chars (1709209815 + epoch)) = "20240229T123015Z" := by decide

end Calendar
