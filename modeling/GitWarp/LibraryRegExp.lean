import GitWarp.LibraryJsText

/-! Regular expressions that are a row of terms: the ends of the text, a unit or any unit of the class of the dot, once or
repeated. An anchored row matches the texts that can be cut into pieces for its terms. -/

namespace GitWarp.RegExp

section Matching

variable {α : Type}

inductive Atom (α : Type) where
  | dot
  | unit (c : α)
  deriving DecidableEq

inductive Term (α : Type) where
  | start
  | finish
  | one (atom : Atom α)
  | many (atom : Atom α)
  deriving DecidableEq

variable [DecidableEq α] (dotClass : α → Bool)

def Atom.accepts : Atom α → α → Bool
  | .dot, d => dotClass d
  | .unit c, d => d = c

/-- A row of terms at a place of the text; `atStart` says whether the place is its start. -/
def matchesAt : List (Term α) → Bool → List α → Bool
  | [], _, _ => true
  | .start :: terms, atStart, s => atStart && matchesAt terms atStart s
  | .finish :: terms, atStart, s => s.isEmpty && matchesAt terms atStart s
  | .one _ :: _, _, [] => false
  | .one atom :: terms, _, d :: rest => atom.accepts dotClass d && matchesAt terms false rest
  | .many atom :: terms, atStart, s =>
      (List.range (s.length + 1)).any fun n =>
        (s.take n).all (atom.accepts dotClass) && matchesAt terms (atStart && n == 0) (s.drop n)

/-- `regex.test(s)`: the row matches at some place. -/
def test (terms : List (Term α)) (s : List α) : Bool :=
  matchesAt dotClass terms true s || s.tails.tail.any (matchesAt dotClass terms false)

/-- A piece of a text that a term stands for. -/
def Piece : Term α → List α → Prop
  | .start, piece => piece = []
  | .finish, piece => piece = []
  | .one atom, piece => ∃ d, piece = [d] ∧ atom.accepts dotClass d = true
  | .many atom, piece => ∀ d ∈ piece, atom.accepts dotClass d = true

def Term.IsAtom : Term α → Prop
  | .start => False
  | .finish => False
  | .one _ => True
  | .many _ => True

theorem matchesAt_finish_iff {terms : List (Term α)} (hterms : ∀ term ∈ terms, term.IsAtom) (atStart : Bool) (s : List α) :
    matchesAt dotClass (terms ++ [.finish]) atStart s = true ↔
      ∃ pieces, List.Forall₂ (Piece dotClass) terms pieces ∧ pieces.flatten = s := by
  induction terms generalizing atStart s with
  | nil =>
      rw [List.nil_append, matchesAt, matchesAt, Bool.and_true, List.isEmpty_iff]
      constructor
      · intro h
        exact ⟨[], .nil, h.symm⟩
      · rintro ⟨pieces, hpieces, rfl⟩
        rw [List.forall₂_nil_left_iff.mp hpieces, List.flatten_nil]
  | cons term terms ih =>
      obtain ⟨hterm, htail⟩ := List.forall_mem_cons.mp hterms
      have hcons : (∃ pieces, List.Forall₂ (Piece dotClass) (term :: terms) pieces ∧ pieces.flatten = s) ↔
          ∃ piece rest, Piece dotClass term piece ∧ s = piece ++ rest ∧
            ∃ pieces, List.Forall₂ (Piece dotClass) terms pieces ∧ pieces.flatten = rest := by
        constructor
        · rintro ⟨pieces, hpieces, rfl⟩
          obtain ⟨piece, pieces, hpiece, hrest, rfl⟩ := List.forall₂_cons_left_iff.mp hpieces
          exact ⟨piece, pieces.flatten, hpiece, List.flatten_cons, pieces, hrest, rfl⟩
        · rintro ⟨piece, rest, hpiece, rfl, pieces, hrest, rfl⟩
          exact ⟨piece :: pieces, .cons hpiece hrest, List.flatten_cons⟩
      rw [hcons, List.cons_append]
      cases term with
      | start => exact hterm.elim
      | finish => exact hterm.elim
      | one atom =>
          cases s with
          | nil =>
              rw [matchesAt]
              refine iff_of_false Bool.false_ne_true ?_
              rintro ⟨piece, rest, ⟨d, rfl, -⟩, hnil, -⟩
              cases hnil
          | cons d rest =>
              rw [matchesAt, Bool.and_eq_true, ih htail]
              constructor
              · rintro ⟨haccepts, hpieces⟩
                exact ⟨[d], rest, ⟨d, rfl, haccepts⟩, rfl, hpieces⟩
              · rintro ⟨piece, rest', ⟨d', rfl, haccepts⟩, hcut, hpieces⟩
                obtain ⟨rfl, rfl⟩ := List.cons.inj hcut
                exact ⟨haccepts, hpieces⟩
      | many atom =>
          rw [matchesAt, List.any_eq_true]
          constructor
          · rintro ⟨n, -, hmatch⟩
            rw [Bool.and_eq_true, List.all_eq_true, ih htail] at hmatch
            exact ⟨s.take n, s.drop n, hmatch.1, (List.take_append_drop n s).symm, hmatch.2⟩
          · rintro ⟨piece, rest, hpiece, rfl, hpieces⟩
            refine ⟨piece.length, List.mem_range.mpr (by rw [List.length_append]; omega), ?_⟩
            rw [List.take_left, List.drop_left, Bool.and_eq_true, List.all_eq_true, ih htail]
            exact ⟨hpiece, hpieces⟩

/-- A row between both ends of the text matches what can be cut into its pieces. -/
theorem test_anchored_iff {terms : List (Term α)} (hterms : ∀ term ∈ terms, term.IsAtom) (s : List α) :
    test dotClass (.start :: (terms ++ [.finish])) s = true ↔
      ∃ pieces, List.Forall₂ (Piece dotClass) terms pieces ∧ pieces.flatten = s := by
  have hinside : (s.tails.tail.any (matchesAt dotClass (.start :: (terms ++ [.finish])) false)) = false := by
    rw [List.any_eq_false]
    intro rest _
    rw [matchesAt, Bool.false_and]
    exact Bool.false_ne_true
  rw [test, hinside, Bool.or_false, matchesAt, Bool.true_and]
  exact matchesAt_finish_iff dotClass hterms true s

end Matching

/-! ### Sources -/

def backslash : CodeUnit := 92

def syntaxCharacters : JsString := Js.js "^$\\.*+?()[]\x7b\x7d|"

inductive Token where
  | start
  | finish
  | quantifier
  | atom (atom : Atom CodeUnit)
  deriving DecidableEq

/-- The tokens of a source that uses `^`, `$`, `.`, `*`, escaped syntax characters and characters for themselves. -/
def tokens : JsString → Option (List Token)
  | [] => some []
  | c :: rest =>
      if c = backslash then
        match rest with
        | [] => none
        | d :: rest => if syntaxCharacters.contains d then (tokens rest).map (.atom (.unit d) :: ·) else none
      else if c = 94 then (tokens rest).map (.start :: ·)
      else if c = 36 then (tokens rest).map (.finish :: ·)
      else if c = 46 then (tokens rest).map (.atom .dot :: ·)
      else if c = 42 then (tokens rest).map (.quantifier :: ·)
      else if syntaxCharacters.contains c then none
      else (tokens rest).map (.atom (.unit c) :: ·)

theorem tokens_start (rest : JsString) : tokens (94 :: rest) = (tokens rest).map (.start :: ·) := by
  rw [tokens.eq_def]
  exact (if_neg (by decide)).trans (if_pos rfl)

theorem tokens_finish (rest : JsString) : tokens (36 :: rest) = (tokens rest).map (.finish :: ·) := by
  rw [tokens.eq_def]
  exact (if_neg (by decide)).trans ((if_neg (by decide)).trans (if_pos rfl))

theorem tokens_dotStar (rest : JsString) :
    tokens (46 :: 42 :: rest) = (tokens rest).map fun tokens => .atom .dot :: .quantifier :: tokens := by
  have hdot : tokens (46 :: 42 :: rest) = (tokens (42 :: rest)).map (.atom .dot :: ·) := by
    rw [tokens.eq_def]
    exact (if_neg (by decide)).trans ((if_neg (by decide)).trans ((if_neg (by decide)).trans (if_pos rfl)))
  have hstar : tokens (42 :: rest) = (tokens rest).map (.quantifier :: ·) := by
    rw [tokens.eq_def]
    exact (if_neg (by decide)).trans
      ((if_neg (by decide)).trans ((if_neg (by decide)).trans ((if_neg (by decide)).trans (if_pos rfl))))
  rw [hdot, hstar, Option.map_map]
  rfl

theorem tokens_escaped {d : CodeUnit} (hspecial : syntaxCharacters.contains d = true) (rest : JsString) :
    tokens (backslash :: d :: rest) = (tokens rest).map (.atom (.unit d) :: ·) := by
  rw [tokens.eq_def]
  exact (if_pos rfl).trans (if_pos hspecial)

theorem tokens_literal {c : CodeUnit} (hliteral : syntaxCharacters.contains c ≠ true) (rest : JsString) :
    tokens (c :: rest) = (tokens rest).map (.atom (.unit c) :: ·) := by
  have hne : ∀ d, syntaxCharacters.contains d = true → c ≠ d := by
    rintro d hd rfl
    exact hliteral hd
  rw [tokens.eq_def]
  dsimp only
  rw [if_neg (hne _ (by decide)), if_neg (hne _ (by decide)), if_neg (hne _ (by decide)), if_neg (hne _ (by decide)),
    if_neg (hne _ (by decide)), if_neg hliteral]

def terms : List Token → Option (List (Term CodeUnit))
  | [] => some []
  | .start :: rest => (terms rest).map (.start :: ·)
  | .finish :: rest => (terms rest).map (.finish :: ·)
  | .atom atom :: .quantifier :: rest => (terms rest).map (.many atom :: ·)
  | .atom atom :: rest => (terms rest).map (.one atom :: ·)
  | .quantifier :: _ => none

/-- `new RegExp(source)`, for the sources of `tokens`; there is nothing to repeat before a `*` that follows no atom. -/
def newRegExp (source : JsString) : Except Js.JsError (List (Term CodeUnit)) :=
  match (tokens source).bind terms with
  | some terms => .ok terms
  | none => .error ⟨"SyntaxError", s!"Invalid regular expression: /{Js.toText source}/"⟩

end GitWarp.RegExp
