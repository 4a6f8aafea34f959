import Reckoner.Precision.Basic

/-! # Settings of a calculator

Settings are what a user may choose, so they may be wrong. They are checked as a whole before they
are used, and settings that pass determine a working precision.
-/

namespace Reckoner

/-- What a user chooses for evaluations and for the session around them. -/
structure Settings where
  /-- Significant digits that every literal and every result keeps. -/
  digits : Nat
  rounding : RoundingMode
  /-- The line that ends a session. -/
  exitKeyword : String
  /-- What is written before each line is read. -/
  prompt : String
  /-- Whether the events of each evaluation are shown before its result. -/
  trace : Bool
  deriving Repr, DecidableEq

/-- What is wrong with settings. -/
inductive SettingsError where
  | noDigits
  | tooManyDigits
  | blankExitKeyword
  deriving Repr, DecidableEq

def SettingsError.message : SettingsError → String
  | noDigits => "Precision must be at least one significant digit"
  | tooManyDigits => s!"Precision cannot exceed {maxDigits} significant digits"
  | blankExitKeyword => "Exit keyword cannot be empty"

namespace Settings

/-- Settings with these digits and this mode, and everything else as it is by default. -/
def make (digits : Nat) (rounding : RoundingMode) : Settings :=
  ⟨digits, rounding, "exit", "> ", false⟩

/-- Settings with the digits and the mode of a working precision. -/
def ofPrecision (precision : Precision) : Settings :=
  make precision.digits precision.rounding

/-- Settings that nobody has changed. -/
def default : Settings :=
  ofPrecision .decimal64

instance : Inhabited Settings := ⟨default⟩

/-- Check the settings, the number of digits first. Settings without fault give the working
    precision they describe. -/
def check (settings : Settings) : Except SettingsError Precision :=
  if h : 0 < settings.digits then
    if h' : settings.digits ≤ maxDigits then
      if (trimBlanks settings.exitKeyword.toList).isEmpty then .error .blankExitKeyword
      else .ok ⟨settings.digits, settings.rounding, h, h'⟩
    else .error .tooManyDigits
  else .error .noDigits

/-- What is wrong with the settings, if anything is. -/
def fault? (settings : Settings) : Option SettingsError :=
  match settings.check with
  | .ok _ => none
  | .error fault => some fault

end Settings

end Reckoner
