import Bionic.CppVars
import Mathlib.Data.List.DropRight

/-! # Empty lines that are removed (`libc/kernel/tools/cpp.py`)

`BlockList.removeEmptyLines` drops the spaces at the ends of lines, and keeps at most one of successive empty lines.
The blocks of `BlockParser` end with a line, but those that `removeVarsAndFuncs` leaves may end anywhere.

Where a block ends in a line and the next one starts with the rest of it, which is empty, the line feed is taken for an
empty line; if the line before was empty too, the line feed is dropped, and the line is joined to the next one.
`keepsLines_iff` says that nothing else goes wrong. -/

namespace Bionic.CppEmptyLines

open CppBlockParser (Token Block Item isSpace lines)
open CppVars (itemsOf textBlock)

variable {ε : Type}

/-! ### `removeEmptyLines` -/

def isLN (t : Token) : Bool := t.id = .ln

/-- The loop over the lines of a block, for one line.  `state` says that the previous line was empty. -/
def cleanLine (state : Bool) (line : List Token) : List Token × Bool :=
  let body := line.takeWhile fun t => !isLN t
  match line.dropWhile fun t => !isLN t with
  | [] => (line, state)
  | ln :: _ =>
      if body.all isSpace then (if state then [] else [ln], true)
      else (body.rdropWhile isSpace ++ [ln], false)

/-- The tokens that are left of the lines of a block. -/
def cleanLines : Bool → List (List Token) → List Token × Bool
  | state, [] => ([], state)
  | state, line :: rest =>
      let (dst, state) := cleanLine state line
      let (dst', state) := cleanLines state rest
      (dst ++ dst', state)

/-- The loop over the blocks. -/
def cleanBlocks : Bool → List (Block ε) → List (Block ε)
  | _, [] => []
  | state, b :: blocks =>
      match b.directive with
      | some _ => b :: cleanBlocks false blocks
      | none =>
          let (dst, state) := cleanLines state (lines b.tokens)
          { b with tokens := dst } :: cleanBlocks state blocks

/-- `removeEmptyLines` -/
def removeEmptyLines (blocks : List (Block ε)) : List (Block ε) := cleanBlocks true blocks

/-! ### Lines -/

/-- The tokens that are no spaces, and the directives.  The flag says that a line has ended behind the one before. -/
def atoms : Bool → List (Item ε) → List (Bool × Item ε)
  | _, [] => []
  | newline, .directive b :: items => (newline, .directive b) :: atoms true items
  | newline, .text t :: items =>
      if isLN t then atoms true items
      else if isSpace t then atoms newline items
      else (newline, .text t) :: atoms false items

/-- There are no two empty lines one behind the other, from a place on that may be the start of a line, behind a line
that may be empty. -/
def NoTwoEmpty : Bool → Bool → List (Item ε) → Prop
  | _, _, [] => True
  | _, _, .directive _ :: items => NoTwoEmpty true false items
  | atStart, empty, .text t :: items =>
      if isLN t then ¬ (atStart = true ∧ empty = true) ∧ NoTwoEmpty true atStart items
      else if isSpace t then NoTwoEmpty atStart empty items
      else NoTwoEmpty false empty items

/-- The tokens and directives are the same, those on different lines stay on different lines, and there are no two empty
lines one behind the other. -/
def KeepsLines (blocks : List (Block ε)) : Prop :=
  List.Forall₂ (fun a b => a.2 = b.2 ∧ (a.1 = true → b.1 = true)) (atoms true (itemsOf blocks))
      (atoms true (itemsOf (removeEmptyLines blocks))) ∧
    NoTwoEmpty true false (itemsOf (removeEmptyLines blocks))

/-- What the loops work on: directives, and lines of blocks. -/
inductive Event (ε : Type)
  | directive (b : Block ε)
  | line (toks : List Token)

def Block.events (b : Block ε) : List (Event ε) :=
  match b.directive with
  | some _ => [.directive b]
  | none => (lines b.tokens).map .line

def Event.items : Event ε → List (Item ε)
  | directive b => [.directive b]
  | line toks => toks.map .text

def Empty (line : List Token) : Prop := ∀ t ∈ line, isLN t = true ∨ isSpace t = true

instance (line : List Token) : Decidable (Empty line) := List.decidableBAll _ _

/-- The start of a line may be in one block and its end, with no token, in the next.  The line in front of it is then
not empty, nor the first one, or nothing but spaces and empty lines follows.

`state` says that the last line that has ended was empty, or that there is none, with no directive since; `newline` says
that no token is on the current line. -/
def Apart : Bool → Bool → List (Event ε) → Prop
  | _, _, [] => True
  | _, _, .directive _ :: events => Apart false true events
  | state, newline, .line line :: events =>
      if ∃ t ∈ line, isLN t = true then
        if Empty line then
          if state = true ∧ newline = false then atoms true (events.flatMap Event.items) = []
          else Apart true true events
        else Apart false true events
      else Apart state (newline && decide (Empty line)) events

/-! ### The lines of blocks -/

/-- The items that are left of events. -/
def cleanEvents : Bool → List (Event ε) → List (Item ε)
  | _, [] => []
  | _, .directive b :: events => .directive b :: cleanEvents false events
  | state, .line line :: events =>
      (cleanLine state line).1.map .text ++ cleanEvents (cleanLine state line).2 events

theorem lines_flatten (toks : List Token) : (lines toks).flatten = toks := by
  induction toks with
  | nil => rfl
  | cons t toks ih =>
      rw [lines]
      split
      next => rw [List.flatten_cons, ih]; rfl
      next =>
        split
        next none => rw [← ih, none]; rfl
        next line rest some =>
          rw [some] at ih
          exact congrArg (t :: ·) ih

theorem lines_items (lines : List (List Token)) :
    (lines.map .line : List (Event ε)).flatMap Event.items = lines.flatten.map .text := by
  induction lines with
  | nil => rfl
  | cons line lines ih => rw [List.map_cons, List.flatMap_cons, ih, List.flatten_cons, List.map_append]; rfl

theorem events_items (blocks : List (Block ε)) :
    (blocks.flatMap Block.events).flatMap Event.items = itemsOf blocks := by
  rw [List.flatMap_assoc]
  refine List.flatMap_congr fun b _ => ?_
  cases directive : b.directive with
  | some d =>
      rw [Block.events, CppBlockParser.Block.items, directive]
      rfl
  | none =>
      rw [Block.events, CppBlockParser.Block.items, directive]
      exact (lines_items _).trans (by rw [lines_flatten])

theorem cleanEvents_lines (state : Bool) (lines : List (List Token)) (events : List (Event ε)) :
    cleanEvents state (lines.map .line ++ events) =
      (cleanLines state lines).1.map .text ++ cleanEvents (cleanLines state lines).2 events := by
  induction lines generalizing state with
  | nil => rfl
  | cons line lines ih =>
      rw [List.map_cons, List.cons_append, cleanEvents, ih, cleanLines, List.map_append, List.append_assoc]

theorem items_cleanBlocks (state : Bool) (blocks : List (Block ε)) :
    itemsOf (cleanBlocks state blocks) = cleanEvents state (blocks.flatMap Block.events) := by
  induction blocks generalizing state with
  | nil => rfl
  | cons b blocks ih =>
      obtain ⟨tokens, directive, lineno, expr⟩ := b
      rw [List.flatMap_cons]
      cases directive with
      | some d => exact congrArg (.directive ⟨tokens, some d, lineno, expr⟩ :: ·) (ih false)
      | none =>
          show _ = cleanEvents state ((lines tokens).map .line ++ blocks.flatMap Block.events)
          rw [cleanEvents_lines, ← ih]
          rfl

/-- A line of a block: tokens and a line feed, or the tokens at the end of the block. -/
theorem line_cases (toks line : List Token) (h : line ∈ lines toks) :
    (∃ body ln, line = body ++ [ln] ∧ (∀ t ∈ body, isLN t = false) ∧ isLN ln = true) ∨ ∀ t ∈ line, isLN t = false := by
  induction toks generalizing line with
  | nil => cases h
  | cons t toks ih =>
      rw [lines] at h
      split at h
      next ln =>
        cases h with
        | head => exact .inl ⟨[], t, rfl, List.forall_mem_nil _, decide_eq_true ln⟩
        | tail _ h => exact ih line h
      next ln =>
        have open_ : isLN t = false := decide_eq_false ln
        split at h
        next none =>
          rw [List.mem_singleton.1 h]
          exact .inr (List.forall_mem_singleton.2 open_)
        next first rest some =>
          rw [some] at ih
          cases h with
          | head =>
              obtain ⟨body, ln, rfl, free, feed⟩ | free := ih first List.mem_cons_self
              · exact .inl ⟨t :: body, ln, rfl, List.forall_mem_cons.2 ⟨open_, free⟩, feed⟩
              · exact .inr (List.forall_mem_cons.2 ⟨open_, free⟩)
          | tail _ h => exact ih line (List.mem_cons_of_mem _ h)

section

variable {body : List Token} {ln : Token} {state : Bool}

theorem cleanLine_body (free : ∀ t ∈ body, isLN t = false) : cleanLine state body = (body, state) := by
  have all : ∀ t ∈ body, (!isLN t) = true := fun t ht => by rw [free t ht]; rfl
  unfold cleanLine
  rw [List.dropWhile_eq_nil_iff.2 all]

theorem cleanLine_ln (free : ∀ t ∈ body, isLN t = false) (feed : isLN ln = true) :
    cleanLine state (body ++ [ln]) =
      if body.all isSpace then (if state then [] else [ln], true) else (body.rdropWhile isSpace ++ [ln], false) := by
  have all : ∀ t ∈ body, (!isLN t) = true := fun t ht => by rw [free t ht]; rfl
  have none : [ln].takeWhile (fun t => !isLN t) = [] := by simp [feed]
  have one : [ln].dropWhile (fun t => !isLN t) = [ln] := by simp [feed]
  unfold cleanLine
  rw [List.takeWhile_append_of_pos all, List.dropWhile_append_of_pos all, none, one, List.append_nil]

/-! ### Atoms of a line -/

theorem atoms_append (free : ∀ t ∈ body, isLN t = false) (newline : Bool) (items : List (Item ε)) :
    atoms newline (body.map .text ++ items) =
      atoms newline (body.map .text) ++ atoms (newline && body.all isSpace) items := by
  induction body generalizing newline with
  | nil => rw [List.map_nil, List.all_nil, Bool.and_true]; rfl
  | cons t body ih =>
      obtain ⟨first, free⟩ := List.forall_mem_cons.1 free
      have noLN : ¬ isLN t = true := by rw [first]; nofun
      rw [List.map_cons, List.cons_append, atoms, atoms, if_neg noLN, if_neg noLN, List.all_cons]
      by_cases space : isSpace t = true
      · rw [if_pos space, if_pos space, ih free, space, Bool.true_and]
      · rw [if_neg space, if_neg space, ih free, Bool.eq_false_iff.2 space, Bool.false_and, Bool.and_false]
        rfl

theorem atoms_spaces (spaces : ∀ t ∈ body, isSpace t = true) (newline : Bool) :
    atoms newline (body.map .text : List (Item ε)) = [] := by
  induction body with
  | nil => rfl
  | cons t body ih =>
      obtain ⟨first, spaces⟩ := List.forall_mem_cons.1 spaces
      have noLN : ¬ isLN t = true := by
        have id : t.id = .space := of_decide_eq_true first
        simp [isLN, id]
      rw [List.map_cons, atoms, if_neg noLN, if_pos first, ih spaces]

/-- A line that is not empty has atoms, and only the first of them can be behind the end of a line. -/
theorem atoms_body (free : ∀ t ∈ body, isLN t = false) (some : body.all isSpace = false) (newline : Bool) :
    ∃ t more, atoms newline (body.map .text : List (Item ε)) = (newline, .text t) :: more := by
  induction body with
  | nil => cases some
  | cons t body ih =>
      obtain ⟨first, free⟩ := List.forall_mem_cons.1 free
      have noLN : ¬ isLN t = true := by rw [first]; nofun
      rw [List.map_cons, atoms, if_neg noLN]
      by_cases space : isSpace t = true
      · rw [List.all_cons, space, Bool.true_and] at some
        rw [if_pos space]
        exact ih free some
      · exact ⟨t, _, if_neg space⟩

theorem atoms_rdropWhile (free : ∀ t ∈ body, isLN t = false) (newline : Bool) :
    atoms newline ((body.rdropWhile isSpace).map .text : List (Item ε)) = atoms newline (body.map .text) := by
  have split : body = body.rdropWhile isSpace ++ body.rtakeWhile isSpace := (List.rdropWhile_append_rtakeWhile ..).symm
  have front : ∀ t ∈ body.rdropWhile isSpace, isLN t = false := by
    intro t ht
    exact free t (split ▸ List.mem_append_left _ ht)
  have spaces : ∀ t ∈ body.rtakeWhile isSpace, isSpace t = true := fun t ht => List.mem_rtakeWhile_imp ht
  conv => rhs; rw [split, List.map_append, atoms_append front, atoms_spaces spaces, List.append_nil]

theorem atoms_feed (feed : isLN ln = true) (newline : Bool) (items : List (Item ε)) :
    atoms newline (.text ln :: items) = atoms true items := if_pos feed

end

/-! ### Lines stay apart -/

section

variable {events : List (Event ε)} {state newline : Bool}

/-- The events of blocks: directives, empty lines, lines with a token, and lines that a block leaves open. -/
inductive Lined : List (Event ε) → Prop
  | nil : Lined []
  | directive {events : List (Event ε)} (b : Block ε) : Lined events → Lined (.directive b :: events)
  | empty {events : List (Event ε)} {body : List Token} {ln : Token} (free : ∀ t ∈ body, isLN t = false)
      (feed : isLN ln = true) (spaces : body.all isSpace = true) : Lined events → Lined (.line (body ++ [ln]) :: events)
  | full {events : List (Event ε)} {body : List Token} {ln : Token} (free : ∀ t ∈ body, isLN t = false)
      (feed : isLN ln = true) (some : body.all isSpace = false) : Lined events → Lined (.line (body ++ [ln]) :: events)
  | unended {events : List (Event ε)} {body : List Token} (free : ∀ t ∈ body, isLN t = false) :
      Lined events → Lined (.line body :: events)

theorem Lined.lines (lined : Lined events) (toks : List Token) :
    Lined ((CppBlockParser.lines toks).map .line ++ events) := by
  have all := line_cases toks
  generalize CppBlockParser.lines toks = ls at all ⊢
  induction ls with
  | nil => exact lined
  | cons line rest ih =>
      have tail := ih fun line mem => all line (List.mem_cons_of_mem _ mem)
      obtain ⟨body, ln, rfl, free, feed⟩ | free := all line List.mem_cons_self
      · cases spaces : body.all isSpace with
        | true => exact .empty free feed spaces tail
        | false => exact .full free feed spaces tail
      · exact .unended free tail

theorem lined_events (blocks : List (Block ε)) : Lined (blocks.flatMap Block.events) := by
  induction blocks with
  | nil => exact .nil
  | cons b blocks ih =>
      rw [List.flatMap_cons, Block.events]
      split
      next => exact .directive b ih
      next => exact ih.lines b.tokens

/-- The items of an event in front of others, and what is left of them. -/
theorem items_cons (event : Event ε) (events : List (Event ε)) :
    (event :: events).flatMap Event.items = event.items ++ events.flatMap Event.items := List.flatMap_cons

theorem atoms_line {body : List Token} {ln : Token} (free : ∀ t ∈ body, isLN t = false) (feed : isLN ln = true)
    (newline : Bool) (items : List (Item ε)) :
    atoms newline ((body ++ [ln]).map .text ++ items) = atoms newline (body.map .text) ++ atoms true items := by
  rw [List.map_append, List.append_assoc, atoms_append free]
  exact congrArg (atoms newline (body.map .text) ++ ·) (atoms_feed feed _ items)

/-- What is left of a line with a token has its atoms. -/
theorem atoms_full {body : List Token} {ln : Token} (free : ∀ t ∈ body, isLN t = false) (feed : isLN ln = true)
    (newline : Bool) (items : List (Item ε)) :
    atoms newline ((body.rdropWhile isSpace ++ [ln]).map .text ++ items) =
      atoms newline (body.map .text) ++ atoms true items := by
  have front : ∀ t ∈ body.rdropWhile isSpace, isLN t = false := fun t ht =>
    free t ((List.rdropWhile_prefix _ _).sublist.mem ht)
  rw [atoms_line front feed, atoms_rdropWhile free]

theorem cleanEvents_full {body : List Token} {ln : Token} (free : ∀ t ∈ body, isLN t = false) (feed : isLN ln = true)
    (some : body.all isSpace = false) :
    cleanEvents state (.line (body ++ [ln]) :: events) =
      (body.rdropWhile isSpace ++ [ln]).map .text ++ cleanEvents false events := by
  rw [cleanEvents, cleanLine_ln free feed, some]
  rfl

theorem cleanEvents_empty {body : List Token} {ln : Token} (free : ∀ t ∈ body, isLN t = false) (feed : isLN ln = true)
    (spaces : body.all isSpace = true) :
    cleanEvents state (.line (body ++ [ln]) :: events) =
      (if state then [] else [.text ln]) ++ cleanEvents true events := by
  rw [cleanEvents, cleanLine_ln free feed, spaces]
  cases state <;> rfl

theorem cleanEvents_unended {body : List Token} (free : ∀ t ∈ body, isLN t = false) :
    cleanEvents state (.line body :: events) = body.map .text ++ cleanEvents state events := by
  rw [cleanEvents, cleanLine_body free]

theorem atoms_empty {body : List Token} {ln : Token} (free : ∀ t ∈ body, isLN t = false) (feed : isLN ln = true)
    (spaces : body.all isSpace = true) (newline : Bool) (items : List (Item ε)) :
    atoms newline ((body ++ [ln]).map .text ++ items) = atoms true items := by
  rw [atoms_line free feed, atoms_spaces (List.all_eq_true.1 spaces), List.nil_append]

/-- Where a line ends in front of some items, the flags of them do not change what they are. -/
theorem atoms_snd (newline newline' : Bool) (items : List (Item ε)) :
    (atoms newline items).map Prod.snd = (atoms newline' items).map Prod.snd := by
  induction items generalizing newline newline' with
  | nil => rfl
  | cons item items ih =>
      cases item with
      | directive b => rfl
      | text t =>
          rw [atoms, atoms]
          split
          next => rfl
          next =>
            split
            next => exact ih _ _
            next => rfl

/-- Nothing but spaces and line feeds is dropped. -/
theorem cleanEvents_snd (lined : Lined events) (state newline newline' : Bool) :
    (atoms newline (cleanEvents state events)).map Prod.snd =
      (atoms newline' (events.flatMap Event.items)).map Prod.snd := by
  induction lined generalizing state newline newline' with
  | nil => rfl
  | directive b _ ih => exact congrArg (.directive b :: ·) (ih false true true)
  | empty free feed spaces _ ih =>
      rw [cleanEvents_empty free feed spaces, items_cons]
      show _ = (atoms newline' ((_ : List Token).map .text ++ _)).map Prod.snd
      rw [atoms_empty free feed spaces]
      cases state with
      | true => exact ih _ _ _
      | false =>
          show (atoms newline (.text _ :: _)).map Prod.snd = _
          rw [atoms_feed feed]
          exact ih _ _ _
  | full free feed some _ ih =>
      rw [cleanEvents_full free feed some, items_cons, atoms_full free feed]
      show _ = (atoms newline' ((_ : List Token).map .text ++ _)).map Prod.snd
      rw [atoms_line free feed, List.map_append, List.map_append, ih false true true, atoms_snd newline newline']
  | unended free _ ih =>
      rw [cleanEvents_unended free, items_cons, atoms_append free]
      show _ = (atoms newline' ((_ : List Token).map .text ++ _)).map Prod.snd
      rw [atoms_append free, List.map_append, List.map_append, atoms_snd newline newline', ih]

/-- The first item behind an empty line that was dropped is on the same line as what is in front of it. -/
theorem cleanEvents_joined (lined : Lined events) {newline : Bool} {item : Item ε} {more : List (Bool × Item ε)}
    (first : atoms false (cleanEvents true events) = (newline, item) :: more) : newline = false := by
  induction lined with
  | nil => cases first
  | directive b _ ih =>
      cases first
      rfl
  | empty free feed spaces _ ih =>
      rw [cleanEvents_empty free feed spaces] at first
      exact ih first
  | full free feed some _ ih =>
      obtain ⟨t, more', atoms⟩ := atoms_body (ε := ε) free some false
      rw [cleanEvents_full free feed some, atoms_full free feed, atoms] at first
      cases first
      rfl
  | @unended events body free _ ih =>
      rw [cleanEvents_unended free, atoms_append free] at first
      cases spaces : body.all isSpace with
      | true =>
          rw [atoms_spaces (List.all_eq_true.1 spaces), spaces] at first
          exact ih first
      | false =>
          obtain ⟨t, more', atoms⟩ := atoms_body (ε := ε) free spaces false
          rw [atoms] at first
          cases first
          rfl

theorem atoms_true {items : List (Item ε)} {newline : Bool} {item : Item ε} {rest : List (Bool × Item ε)}
    (first : atoms true items = (newline, item) :: rest) : newline = true := by
  induction items with
  | nil => cases first
  | cons item' items ih =>
      cases item' with
      | directive b =>
          cases first
          rfl
      | text t =>
          rw [atoms] at first
          split at first
          next => exact ih first
          next =>
            split at first
            next => exact ih first
            next =>
              cases first
              rfl

/-- The items are the same, and line ends stay. -/
abbrev Kept (a b : Bool × Item ε) : Prop := a.2 = b.2 ∧ (a.1 = true → b.1 = true)

theorem kept_append {front a b : List (Bool × Item ε)} :
    List.Forall₂ Kept (front ++ a) (front ++ b) ↔ List.Forall₂ Kept a b := by
  induction front with
  | nil => exact Iff.rfl
  | cons x front ih =>
      rw [List.cons_append, List.cons_append, List.forall₂_cons, ih]
      exact and_iff_right ⟨rfl, id⟩

/-- Where an open line lost its end, nothing may follow. -/
theorem kept_joined (lined : Lined events) :
    List.Forall₂ Kept (atoms true (events.flatMap Event.items)) (atoms false (cleanEvents true events)) ↔
      atoms true (events.flatMap Event.items) = [] := by
  have same := cleanEvents_snd lined true false true
  constructor
  · intro kept
    cases first : atoms true (events.flatMap Event.items) with
    | nil => rfl
    | cons a rest =>
        obtain ⟨newline, item⟩ := a
        obtain rfl := atoms_true first
        cases second : atoms false (cleanEvents true events) with
        | nil =>
            rw [first, second] at same
            cases same
        | cons b rest' =>
            obtain ⟨newline', item'⟩ := b
            obtain rfl := cleanEvents_joined lined second
            rw [first, second] at kept
            cases kept with
            | cons h _ => exact absurd (h.2 rfl) Bool.false_ne_true
  · intro none
    rw [none] at same ⊢
    rw [List.map_eq_nil_iff.1 same]
    exact .nil

theorem empty_iff {body : List Token} (free : ∀ t ∈ body, isLN t = false) : Empty body ↔ body.all isSpace = true := by
  rw [List.all_eq_true]
  refine forall₂_congr fun t ht => ?_
  rw [free t ht]
  exact or_iff_right Bool.false_ne_true

theorem empty_line_iff {body : List Token} {ln : Token} (free : ∀ t ∈ body, isLN t = false) (feed : isLN ln = true) :
    Empty (body ++ [ln]) ↔ body.all isSpace = true := by
  rw [← empty_iff free]
  refine ⟨fun h t ht => h t (List.mem_append_left _ ht), fun h t ht => ?_⟩
  rcases List.mem_append.1 ht with ht | ht
  · exact h t ht
  · rw [List.mem_singleton.1 ht]
    exact .inl feed

theorem apart_line {body : List Token} {ln : Token} (free : ∀ t ∈ body, isLN t = false) (feed : isLN ln = true) :
    Apart state newline (.line (body ++ [ln]) :: events) ↔
      if body.all isSpace = true then
        if state = true ∧ newline = false then atoms true (events.flatMap Event.items) = [] else Apart true true events
      else Apart false true events := by
  have ends : ∃ t ∈ body ++ [ln], isLN t = true := ⟨ln, List.mem_append_right _ List.mem_cons_self, feed⟩
  rw [Apart, if_pos ends]
  simp only [empty_line_iff free feed]

theorem apart_unended {body : List Token} (free : ∀ t ∈ body, isLN t = false) :
    Apart state newline (.line body :: events) ↔ Apart state (newline && body.all isSpace) events := by
  have unended : ¬ ∃ t ∈ body, isLN t = true := by
    rintro ⟨t, ht, feed⟩
    rw [free t ht] at feed
    cases feed
  rw [Apart, if_neg unended]
  simp only [empty_iff free, Bool.decide_eq_true]

/-- From a place on where the items have the same flag on both sides. -/
theorem kept_iff (lined : Lined events) (state newline : Bool) :
    List.Forall₂ Kept (atoms newline (events.flatMap Event.items)) (atoms newline (cleanEvents state events)) ↔
      Apart state newline events := by
  induction lined generalizing state newline with
  | nil => exact iff_of_true .nil trivial
  | directive b _ ih =>
      show List.Forall₂ Kept ((newline, .directive b) :: _) ((newline, .directive b) :: _) ↔ _
      rw [List.forall₂_cons]
      exact (and_iff_right ⟨rfl, id⟩).trans (ih false true)
  | @empty events body ln free feed spaces lined ih =>
      rw [apart_line free feed, if_pos spaces, cleanEvents_empty free feed spaces, items_cons]
      show List.Forall₂ Kept (atoms newline ((body ++ [ln]).map .text ++ _)) _ ↔ _
      rw [atoms_empty free feed spaces]
      cases state with
      | false =>
          show List.Forall₂ Kept _ (atoms newline (.text ln :: cleanEvents true events)) ↔ _
          rw [atoms_feed feed, if_neg fun h => Bool.false_ne_true h.1]
          exact ih true true
      | true =>
          show List.Forall₂ Kept _ (atoms newline (cleanEvents true events)) ↔ _
          cases newline with
          | true =>
              rw [if_neg fun h => Bool.false_ne_true h.2.symm]
              exact ih true true
          | false =>
              rw [if_pos ⟨rfl, rfl⟩]
              exact kept_joined lined
  | @full events body ln free feed some _ ih =>
      rw [apart_line free feed, some, if_neg Bool.false_ne_true, cleanEvents_full free feed some, items_cons]
      show List.Forall₂ Kept (atoms newline ((body ++ [ln]).map .text ++ _)) _ ↔ _
      rw [atoms_line free feed, atoms_full free feed, kept_append]
      exact ih false true
  | @unended events body free _ ih =>
      rw [apart_unended free, cleanEvents_unended free, items_cons]
      show List.Forall₂ Kept (atoms newline (body.map .text ++ _)) _ ↔ _
      rw [atoms_append free, atoms_append free, kept_append]
      exact ih state _

/-! ### Empty lines -/

theorem noTwoEmpty_append {body : List Token} (free : ∀ t ∈ body, isLN t = false) (atStart empty : Bool)
    (items : List (Item ε)) :
    NoTwoEmpty atStart empty (body.map .text ++ items) ↔ NoTwoEmpty (atStart && body.all isSpace) empty items := by
  induction body generalizing atStart with
  | nil => rw [List.all_nil, Bool.and_true]; rfl
  | cons t body ih =>
      obtain ⟨first, free⟩ := List.forall_mem_cons.1 free
      have noLN : ¬ isLN t = true := by rw [first]; nofun
      rw [List.map_cons, List.cons_append, NoTwoEmpty, if_neg noLN, List.all_cons]
      by_cases space : isSpace t = true
      · rw [if_pos space, ih free, space, Bool.true_and]
      · rw [if_neg space, ih free, Bool.eq_false_iff.2 space, Bool.false_and, Bool.and_false]

theorem noTwoEmpty_feed {ln : Token} (feed : isLN ln = true) (atStart empty : Bool) (items : List (Item ε)) :
    NoTwoEmpty atStart empty (.text ln :: items) ↔
      ¬ (atStart = true ∧ empty = true) ∧ NoTwoEmpty true atStart items := by
  rw [NoTwoEmpty, if_pos feed]

/-- An empty line is only kept behind one that is not. -/
theorem noTwoEmpty_cleanEvents (lined : Lined events) (state atStart empty : Bool)
    (behind : empty = true → state = true) : NoTwoEmpty atStart empty (cleanEvents state events) := by
  induction lined generalizing state atStart empty with
  | nil => trivial
  | directive b _ ih => exact ih false true false nofun
  | @empty events body ln free feed spaces _ ih =>
      rw [cleanEvents_empty free feed spaces]
      cases state with
      | true => exact ih true atStart empty fun _ => rfl
      | false =>
          show NoTwoEmpty atStart empty (.text ln :: cleanEvents true events)
          rw [noTwoEmpty_feed feed]
          exact ⟨fun h => Bool.false_ne_true (behind h.2), ih true true atStart fun _ => rfl⟩
  | @full events body ln free feed some _ ih =>
      have front : ∀ t ∈ body.rdropWhile isSpace, isLN t = false := fun t ht =>
        free t ((List.rdropWhile_prefix _ _).sublist.mem ht)
      have token : (body.rdropWhile isSpace).all isSpace = false := by
        have spaces : (body.rtakeWhile isSpace).all isSpace = true :=
          List.all_eq_true.2 fun t ht => List.mem_rtakeWhile_imp ht
        have split : body.rdropWhile isSpace ++ body.rtakeWhile isSpace = body := List.rdropWhile_append_rtakeWhile
        rw [← split, List.all_append, spaces, Bool.and_true] at some
        exact some
      rw [cleanEvents_full free feed some, List.map_append, List.append_assoc, noTwoEmpty_append front, token,
        Bool.and_false]
      show NoTwoEmpty false empty (.text ln :: cleanEvents false events)
      rw [noTwoEmpty_feed feed]
      exact ⟨fun h => Bool.false_ne_true h.1, ih false true false nofun⟩
  | @unended events body free _ ih =>
      rw [cleanEvents_unended free, noTwoEmpty_append free]
      exact ih state _ empty behind

end

/-- The tokens and the directives are the same, those on different lines stay on different lines, and there are no two
empty lines one behind the other, if and only if no open line loses its end. -/
theorem keepsLines_iff (blocks : List (Block ε)) :
    KeepsLines blocks ↔ Apart true true (blocks.flatMap Block.events) := by
  have lined := lined_events blocks
  rw [KeepsLines, removeEmptyLines, items_cleanBlocks, ← events_items, kept_iff lined true true]
  exact and_iff_left (noTwoEmpty_cleanEvents lined true true false nofun)

/-- From `struct a; int x;`, a line feed and `struct b;`, the two types get on one line. -/
theorem not_keepsLines_removed :
    let word (name : String) : Token := ⟨⟨.ident, name.toList⟩, 1, 0⟩
    let mark (id : CppTokenizer.TokId) : Token := ⟨.ofId id, 1, 0⟩
    let struct (name : String) : List Token := [word "struct", mark .space, word name, mark CppVars.semicolon]
    let source := struct "a" ++ [mark .space, word "int", mark .space, word "x", mark CppVars.semicolon, mark .ln] ++
      struct "b" ++ [mark .ln]
    let blocks : List (Block Unit) := CppVars.removeVarsAndFuncs [] [textBlock source]
    blocks = [textBlock (struct "a" ++ [mark .space]), textBlock (mark .ln :: struct "b" ++ [mark .ln])] ∧
      removeEmptyLines blocks = [textBlock (struct "a" ++ [mark .space]), textBlock (struct "b" ++ [mark .ln])] ∧
      ¬ KeepsLines blocks := by
  intro word mark struct source blocks
  have left : blocks =
      [textBlock (struct "a" ++ [mark .space]), textBlock (mark .ln :: struct "b" ++ [mark .ln])] := by decide
  refine ⟨left, by decide, fun keeps => ?_⟩
  obtain ⟨flags, -⟩ := keeps
  rw [left] at flags
  obtain _ | ⟨-, _ | ⟨-, _ | ⟨-, _ | ⟨joined, -⟩⟩⟩⟩ := flags
  exact Bool.false_ne_true (joined.2 rfl)

end Bionic.CppEmptyLines
