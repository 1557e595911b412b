import StepLink.Glob.Basic
import StepLink.Text.Basic

/-! The written form of globs: `?`, `*`, `**`, sets in brackets, alternatives in braces, and a backslash
before a character that is meant literally. A set or a group that is not closed, a closing brace without its
group, a reversed range and a backslash at the end make a text that is no glob. -/

namespace StepLink.Glob

/-- The ranges of a set, the last one first, while it is being read. -/
structure OpenSet where
  ranges : List (Char × Char)
  /-- A dash has been read that may join the last range with the next character. -/
  joining : Bool

def OpenSet.join? (s : OpenSet) (c : Char) : Option OpenSet :=
  match s.ranges with
  | [] => none
  | (first, _) :: ranges => if c < first then none else some ⟨(first, c) :: ranges, false⟩

/-- Read a set after its first character up to its closing bracket. -/
def readSetRest? (s : OpenSet) : Text → Option (List (Char × Char) × Text)
  | [] => none
  | c :: t =>
    if c = ']' then some ((if s.joining then ('-', '-') :: s.ranges else s.ranges).reverse, t)
    else if c = '-' && !s.joining then readSetRest? ⟨s.ranges, true⟩ t
    else if s.joining then
      match s.join? c with
      | none => none
      | some s => readSetRest? s t
    else readSetRest? ⟨(c, c) :: s.ranges, false⟩ t

/-- Read a set from its first character on, which is literal. -/
def readSetFrom? (negated : Bool) : Text → Option (Item × Text)
  | [] => none
  | c :: t => (readSetRest? ⟨[(c, c)], false⟩ t).map fun (ranges, t) => (.set negated ranges, t)

/-- Read a set after its opening bracket. -/
def readSet? : Text → Option (Item × Text)
  | '!' :: t => readSetFrom? true t
  | '^' :: t => readSetFrom? true t
  | t => readSetFrom? false t

theorem length_le_of_readSetRest? {s : OpenSet} {t rest : Text} {ranges : List (Char × Char)}
    (h : readSetRest? s t = some (ranges, rest)) : rest.length ≤ t.length := by
  induction t generalizing s with
  | nil => simp [readSetRest?] at h
  | cons c t ih =>
    unfold readSetRest? at h
    split at h
    · cases h
      simp
    · split at h
      · exact Nat.le_succ_of_le (ih h)
      · split at h
        · split at h
          · cases h
          · exact Nat.le_succ_of_le (ih h)
        · exact Nat.le_succ_of_le (ih h)

theorem length_le_of_readSetFrom? {negated : Bool} {t rest : Text} {item : Item}
    (h : readSetFrom? negated t = some (item, rest)) : rest.length ≤ t.length := by
  cases t with
  | nil => simp [readSetFrom?] at h
  | cons c t =>
    obtain ⟨⟨ranges, v⟩, hv, heq⟩ := Option.map_eq_some_iff.1 h
    cases heq
    exact Nat.le_succ_of_le (length_le_of_readSetRest? hv)

theorem length_le_of_readSet? {t rest : Text} {item : Item} (h : readSet? t = some (item, rest)) :
    rest.length ≤ t.length := by
  unfold readSet? at h
  split at h
  · exact Nat.le_succ_of_le (length_le_of_readSetFrom? h)
  · exact Nat.le_succ_of_le (length_le_of_readSetFrom? h)
  · exact length_le_of_readSetFrom? h

structure Group where
  /-- The parts before the group, the last one first. -/
  before : List Item
  finished : List (List Item)

structure Partial where
  previous : Option Char
  /-- The parts of the current alternative, the last one first. -/
  items : List Item
  /-- The open groups, the innermost one first. -/
  groups : List Group

def Partial.push (s : Partial) (last : Char) (item : Item) : Partial :=
  { s with previous := some last, items := item :: s.items }

/-- A doubled star that is no more than two stars. -/
def Partial.twoStars (s : Partial) : Partial :=
  (s.push '*' .star).push '*' .star

/-- A doubled star takes the place of the separator before it, unless that belongs to a doubled star that
already stands for as much. -/
def Partial.replaceLast (s : Partial) (last : Char) (item : Item) : Partial :=
  match s.items with
  | .leading :: _ => { s with previous := some last }
  | .trailing :: _ => { s with previous := some last }
  | _ :: items => { s with previous := some last, items := item :: items }
  | [] => { s with previous := some last, items := [item] }

/-- A doubled star may stand for any number of directories here: a separator or the front of an alternative
precedes it. -/
def Partial.mayCross (s : Partial) : Bool :=
  s.previous == some '/' || (!s.groups.isEmpty && (s.previous == some ',' || s.previous == some '{'))

/-- Read a doubled star, given what follows it; the second component tells whether the separator after it
belongs to it. -/
def Partial.doubleStar (s : Partial) (next : Option Char) : Partial × Bool :=
  if s.items.isEmpty then
    if next = none then (s.push '*' .leading, false)
    else if next = some '/' then (s.push '/' .leading, true)
    else (s.twoStars, false)
  else if !s.mayCross then (s.twoStars, false)
  else if next = some '/' then (s.replaceLast '/' .between, true)
  else if next = none || (!s.groups.isEmpty && (next = some ',' || next = some '}')) then
    (s.replaceLast '*' .trailing, false)
  else (s.twoStars, false)

def Partial.finish? (s : Partial) (t : Text) : Option (List Item) :=
  match t with
  | [] => if s.groups.isEmpty then some s.items.reverse else none
  | '\\' :: [] => none
  | '\\' :: c :: t => (s.push c (.literal c)).finish? t
  | '*' :: '*' :: '/' :: t =>
    match s.doubleStar (some '/') with
    | (s, true) => s.finish? t
    | (s, false) => s.finish? ('/' :: t)
  | '*' :: '*' :: t => (s.doubleStar t.head?).1.finish? t
  | '*' :: t => (s.push '*' .star).finish? t
  | '?' :: t => (s.push '?' .any).finish? t
  | '{' :: t => finish? ⟨some '{', [], ⟨s.items, []⟩ :: s.groups⟩ t
  | '}' :: t =>
    match s.groups with
    | [] => none
    | g :: groups =>
      finish? ⟨some '}', .ofAlternatives (g.finished ++ [s.items.reverse]) :: g.before, groups⟩ t
  | ',' :: t =>
    match s.groups with
    | [] => (s.push ',' (.literal ',')).finish? t
    | g :: groups => finish? ⟨some ',', [], ⟨g.before, g.finished ++ [s.items.reverse]⟩ :: groups⟩ t
  | '[' :: t =>
    match h : readSet? t with
    | none => none
    | some (item, rest) =>
      have := length_le_of_readSet? h
      (s.push ']' item).finish? rest
  | c :: t => (s.push c (.literal c)).finish? t
termination_by t.length

def items? (t : Text) : Option (List Item) :=
  Partial.finish? ⟨none, [], []⟩ t

def ofText? (t : Text) : Option Expression :=
  (items? t).map expression

end StepLink.Glob
