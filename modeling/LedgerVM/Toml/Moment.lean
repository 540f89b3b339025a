import LedgerVM.Toml.Scanner

/-!
# Dates and times

A moment is a date of the calendar, a time of day, or both with an optional offset from universal
time.  Moments are recognized and not kept.
-/

namespace LedgerVM.Toml.Scanner

/-- The number of days in a month of a year. -/
def daysInMonth (year month : Nat) : Nat :=
  if month = 2 then if year % 4 = 0 && (year % 100 ≠ 0 || year % 400 = 0) then 29 else 28
  else if month ∈ [4, 6, 9, 11] then 30 else 31

/-- A date of the calendar. -/
def date : Scanner Unit := do
  let year ← digits 4
  char '-'
  let month ← twoDigits 1 12
  char '-'
  discard (twoDigits 1 (daysInMonth year month))

/-- A time of day, which may be a leap second. -/
def timeOfDay : Scanner Unit := do
  discard (twoDigits 0 23)
  char ':'
  discard (twoDigits 0 59)
  char ':'
  discard (twoDigits 0 60)
  discard <| optional do
    char '.'
    discard (digits 1)
    discard (takeWhile Char.isDigit)

/-- An offset from universal time. -/
def offset : Scanner Unit :=
  (do discard (satisfy fun c => c = 'Z' || c = 'z')) <|> do
    discard (satisfy fun c => c = '+' || c = '-')
    discard (twoDigits 0 23)
    char ':'
    discard (twoDigits 0 59)

/-- A date, a time of day or both. -/
def moment : Scanner Unit :=
  (do
    date
    discard <| optional do
      discard (satisfy fun c => c = 'T' || c = 't' || c = ' ')
      timeOfDay
      discard (optional offset)) <|>
  timeOfDay

end LedgerVM.Toml.Scanner
