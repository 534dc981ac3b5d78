/-!
# Options among arguments

An option is a letter after one hyphen or a word after two. Its value is attached to it, after an
equals sign or, behind a letter, without one, or it is the next argument, which then must not look
like an option itself. Two hyphens alone say that no options follow.
-/

namespace AmbisonicReverb.CommandLine

/-- The two names of an option. -/
structure OptionNames where
  letter : Char
  word : String

/-- What an argument looks like. -/
inductive Argument
  | letter (c : Char) (attached : Option String)
  | word (w : String) (attached : Option String)
  | separator
  | operand
deriving DecidableEq, Repr

namespace Argument

def ofString (text : String) : Argument :=
  match text.toList with
  | ['-', '-'] => .separator
  | '-' :: '-' :: rest =>
    let attached := match rest.dropWhile (· != '=') with
      | [] => none
      | _ :: value => some (String.ofList value)
    .word (String.ofList (rest.takeWhile (· != '='))) attached
  | ['-', c] => .letter c none
  | '-' :: c :: '=' :: value => .letter c (some (String.ofList value))
  | '-' :: c :: value => .letter c (some (String.ofList value))
  | _ => .operand

/-- The option that an argument names, and the value attached to it. -/
def option? {κ : Type} (names : κ → OptionNames) (allowed : List κ) :
    Argument → Option (κ × Option String)
  | .letter c attached =>
    (allowed.find? fun k => (names k).letter == c).map fun k => (k, attached)
  | .word w attached => (allowed.find? fun k => (names k).word == w).map fun k => (k, attached)
  | .separator | .operand => none

end Argument

/-- The options at the front of the arguments with their values, and the arguments from the first
one on that is no option. -/
def leadingOptions {κ : Type} (names : κ → OptionNames) (allowed : List κ) :
    List String → Option (List (κ × String) × List String)
  | [] => some ([], [])
  | argument :: rest =>
    match Argument.ofString argument with
    | .separator | .operand => some ([], argument :: rest)
    | named => do
      match ← named.option? names allowed, rest with
      | (key, some value), rest =>
        let (others, rest) ← leadingOptions names allowed rest
        return ((key, value) :: others, rest)
      | (_, none), [] => none
      | (key, none), value :: rest =>
        if Argument.ofString value = .operand then
          let (others, rest) ← leadingOptions names allowed rest
          return ((key, value) :: others, rest)
        else none

/-- The only operand among options, and the options on both sides of it. -/
def singleOperand {κ : Type} (names : κ → OptionNames) (allowed : List κ)
    (arguments : List String) : Option (String × List (κ × String)) := do
  let (before, rest) ← leadingOptions names allowed arguments
  match rest with
  | ["--", operand] => return (operand, before)
  | operand :: rest =>
    if Argument.ofString operand = .separator then none
    else
      let (after, rest) ← leadingOptions names allowed rest
      if rest = [] ∨ rest = ["--"] then return (operand, before ++ after) else none
  | [] => none

/-- All values of an option, in their order. -/
def valuesOf {κ : Type} [DecidableEq κ] (key : κ) (options : List (κ × String)) : List String :=
  options.filterMap fun (k, value) => if k = key then some value else none

/-- The value of an option that is given once at most. -/
def atMostOne {α : Type} (read? : String → Option α) : List String → Option (Option α)
  | [] => some none
  | [value] => some <$> read? value
  | _ => none

end AmbisonicReverb.CommandLine
