import GitWarp.LibraryRegExp
import GitWarp.ObserverView

/-! Glob patterns, compiled to regular expressions that are cached. The answers are those of the patterns, whatever was
asked before. A `*` is compiled to `.*`, which stops at the end of a line. -/

namespace GitWarp
open Js ExceptLoops RegExp

namespace Glob

/-! ### Compilation -/

/-- `value.replace(/[.*+?^${}()|[\]\\]/g, '\\$&')` -/
def escapeRegex (value : JsString) : JsString :=
  value.flatMap fun c => if (js ".*+?^$\x7b\x7d()|[]\\").contains c then [backslash, c] else [c]

/-- `escaped.replace(/\\\*/g, '.*')` -/
def replaceStars : JsString → JsString
  | c :: d :: rest =>
      if c = backslash ∧ d = star then js ".*" ++ replaceStars rest else c :: replaceStars (d :: rest)
  | rest => rest

def globSource (pattern : JsString) : JsString := js "^" ++ replaceStars (escapeRegex pattern) ++ js "$"

/-! ### The cache -/

/-- `globRegexCache` -/
abbrev GlobRegexCache := JsMap JsString (List (Term CodeUnit))

def test (regex : List (Term CodeUnit)) (s : JsString) : Bool := RegExp.test (fun c => !isLineTerminator c) regex s

def cacheRegex (pattern : JsString) (regex : List (Term CodeUnit)) (globRegexCache : GlobRegexCache) : GlobRegexCache :=
  let inserted := globRegexCache.set pattern regex
  if inserted.size ≥ 1000 then JsMap.empty.set pattern regex else inserted

def matchOne (pattern s : JsString) (globRegexCache : GlobRegexCache) : Except JsError (Bool × GlobRegexCache) :=
  if pattern = [star] then .ok (true, globRegexCache)
  else if !pattern.contains star then .ok (pattern = s, globRegexCache)
  else
    match globRegexCache.get pattern with
    | some regex => .ok (test regex s, globRegexCache)
    | none => do
        let regex ← newRegExp (globSource pattern)
        return (test regex s, cacheRegex pattern regex globRegexCache)

/-- `patterns.some((p) => matchGlob(p, str))` -/
def matchSome (s : JsString) : List JsString → GlobRegexCache → Except JsError (Bool × GlobRegexCache)
  | [], globRegexCache => .ok (false, globRegexCache)
  | pattern :: patterns, globRegexCache => do
      let (found, globRegexCache) ← matchOne pattern s globRegexCache
      if found then return (true, globRegexCache) else matchSome s patterns globRegexCache

def matchGlob (pattern : MatchPattern) (s : JsString) (globRegexCache : GlobRegexCache) :
    Except JsError (Bool × GlobRegexCache) :=
  match pattern with
  | .one pattern => matchOne pattern s globRegexCache
  | .any patterns => matchSome s patterns globRegexCache

/-- The cache after a sequence of calls. -/
def cacheAfter (calls : List (MatchPattern × JsString)) : Except JsError GlobRegexCache :=
  calls.foldlM (fun globRegexCache call => do return (← matchGlob call.1 call.2 globRegexCache).2) JsMap.empty

def answer (calls : List (MatchPattern × JsString)) (pattern : MatchPattern) (s : JsString) : Except JsError Bool := do
  return (← matchGlob pattern s (← cacheAfter calls)).1

/-! ### What a pattern is compiled to -/

def globTerm (c : CodeUnit) : Term CodeUnit := if c = star then .many .dot else .one (.unit c)

def globRegex (pattern : JsString) : List (Term CodeUnit) := .start :: (pattern.map globTerm ++ [.finish])

theorem escapeRegex_cons (c : CodeUnit) (pattern : JsString) :
    escapeRegex (c :: pattern) = (if syntaxCharacters.contains c then [backslash, c] else [c]) ++ escapeRegex pattern := by
  have hsame : (js ".*+?^$\x7b\x7d()|[]\\").contains c = syntaxCharacters.contains c := by
    rw [Bool.eq_iff_iff, List.contains_iff_mem, List.contains_iff_mem]
    exact List.Perm.mem_iff (by decide)
  rw [escapeRegex, List.flatMap_cons, hsame]
  rfl

/-- An escaped text does not begin with a star. -/
theorem head_escapeRegex (pattern : JsString) : (escapeRegex pattern).head? ≠ some star := by
  cases pattern with
  | nil => simp [escapeRegex]
  | cons c pattern =>
      rw [escapeRegex_cons]
      split
      · intro hhead
        rw [List.cons_append, List.head?_cons] at hhead
        exact absurd (Option.some.inj hhead) (by decide)
      · rename_i hliteral
        intro hhead
        rw [List.singleton_append, List.head?_cons] at hhead
        rw [Option.some.inj hhead] at hliteral
        exact hliteral (by decide)

theorem replaceStars_cons {c : CodeUnit} {rest : JsString} (h : c ≠ backslash ∨ rest.head? ≠ some star) :
    replaceStars (c :: rest) = c :: replaceStars rest := by
  cases rest with
  | nil => rfl
  | cons d rest =>
      rw [replaceStars, if_neg]
      rintro ⟨hc, rfl⟩
      rcases h with h | h
      · exact h hc
      · exact h rfl

/-- The source of a character of the pattern. -/
def globUnit (c : CodeUnit) : JsString :=
  if c = star then js ".*" else if syntaxCharacters.contains c then [backslash, c] else [c]

theorem replaceStars_escapeRegex (pattern : JsString) : replaceStars (escapeRegex pattern) = pattern.flatMap globUnit := by
  induction pattern with
  | nil => rfl
  | cons c pattern ih =>
      rw [escapeRegex_cons, List.flatMap_cons, globUnit, ← ih]
      by_cases hstar : c = star
      · rw [if_pos hstar, hstar, if_pos (by decide), List.cons_append, List.singleton_append, replaceStars, if_pos ⟨rfl, rfl⟩]
      · rw [if_neg hstar]
        split
        · rw [List.cons_append, List.singleton_append, replaceStars_cons (Or.inr _), replaceStars_cons (Or.inr (head_escapeRegex pattern))]
          · rfl
          · intro hhead
            exact hstar (Option.some.inj hhead)
        · rw [List.singleton_append, replaceStars_cons (Or.inr (head_escapeRegex pattern)), List.singleton_append]

def globTokens (c : CodeUnit) : List Token := if c = star then [.atom .dot, .quantifier] else [.atom (.unit c)]

theorem tokens_globUnit (c : CodeUnit) (rest : JsString) :
    tokens (globUnit c ++ rest) = (tokens rest).map (globTokens c ++ ·) := by
  rw [globUnit, globTokens]
  by_cases hstar : c = star
  · rw [if_pos hstar, if_pos hstar]
    exact tokens_dotStar rest
  · rw [if_neg hstar, if_neg hstar]
    split
    · rename_i hspecial
      exact tokens_escaped hspecial rest
    · rename_i hliteral
      exact tokens_literal hliteral rest

theorem tokens_flatMap_globUnit (pattern rest : JsString) :
    tokens (pattern.flatMap globUnit ++ rest) = (tokens rest).map (pattern.flatMap globTokens ++ ·) := by
  induction pattern with
  | nil => simp
  | cons c pattern ih =>
      rw [List.flatMap_cons, List.append_assoc, tokens_globUnit, ih, Option.map_map]
      congr 1
      funext tokens
      rw [Function.comp_apply, List.flatMap_cons, List.append_assoc]

theorem terms_flatMap_globTokens (pattern : JsString) :
    terms (pattern.flatMap globTokens ++ [.finish]) = some (pattern.map globTerm ++ [.finish]) := by
  induction pattern with
  | nil => rfl
  | cons c pattern ih =>
      have hnext : ∀ rest, pattern.flatMap globTokens ++ [.finish] ≠ .quantifier :: rest := by
        intro rest
        cases pattern with
        | nil => simp
        | cons d pattern =>
            rw [List.flatMap_cons, globTokens]
            split <;> simp
      rw [List.flatMap_cons, List.map_cons, globTerm, globTokens]
      split
      · rw [List.append_assoc, List.cons_append, List.singleton_append, terms, ih]
        rfl
      · rw [List.append_assoc, List.singleton_append, terms.eq_5 _ _ hnext, ih]
        rfl

/-- The source of a pattern is a regular expression, of one term for each character of the pattern. -/
theorem newRegExp_globSource (pattern : JsString) : newRegExp (globSource pattern) = .ok (globRegex pattern) := by
  have hsource : globSource pattern = 94 :: (pattern.flatMap globUnit ++ js "$") := by
    rw [globSource, replaceStars_escapeRegex, List.append_assoc]
    rfl
  have htokens : tokens (globSource pattern) = some (.start :: (pattern.flatMap globTokens ++ [.finish])) := by
    have hfinish : tokens (js "$") = some [.finish] := tokens_finish []
    rw [hsource, tokens_start, tokens_flatMap_globUnit, hfinish]
    rfl
  rw [newRegExp, htokens, Option.bind_some, terms, terms_flatMap_globTokens]
  rfl

theorem matchesAt_globTerms (pattern : JsString) (atStart : Bool) (s : JsString) :
    matchesAt (fun c => !isLineTerminator c) (pattern.map globTerm ++ [.finish]) atStart s = globRegexTest pattern s := by
  induction pattern generalizing atStart s with
  | nil =>
      rw [List.map_nil, List.nil_append, matchesAt, matchesAt, Bool.and_true, globRegexTest]
  | cons c pattern ih =>
      rw [List.map_cons, List.cons_append, globTerm, globRegexTest.eq_def]
      dsimp only
      split
      · rw [matchesAt]
        congr 1
        funext n
        rw [ih]
        rfl
      · cases s with
        | nil => rw [matchesAt]
        | cons d rest =>
            rw [matchesAt, ih]
            rfl

theorem test_globRegex (pattern s : JsString) : test (globRegex pattern) s = globRegexTest pattern s := by
  have hinside : s.tails.tail.any (matchesAt (fun c => !isLineTerminator c) (globRegex pattern) false) = false := by
    rw [List.any_eq_false]
    intro rest _
    rw [globRegex, matchesAt, Bool.false_and]
    exact Bool.false_ne_true
  rw [test, RegExp.test, hinside, Bool.or_false, globRegex, matchesAt, Bool.true_and, matchesAt_globTerms]

/-! ### The cache does not change an answer -/

/-- What the cache holds for a pattern is what the pattern is compiled to. -/
def Compiled (globRegexCache : GlobRegexCache) : Prop :=
  ∀ pattern regex, globRegexCache.get pattern = some regex → regex = globRegex pattern

theorem compiled_empty : Compiled JsMap.empty := by
  intro pattern regex h
  cases h

theorem Compiled.set {globRegexCache : GlobRegexCache} (hcache : Compiled globRegexCache) (pattern : JsString) :
    Compiled (globRegexCache.set pattern (globRegex pattern)) := by
  intro key regex hget
  rw [JsMap.get_set] at hget
  split at hget
  · rename_i hkey
    rw [hkey]
    exact (Option.some.inj hget).symm
  · exact hcache key regex hget

theorem Compiled.cacheRegex {globRegexCache : GlobRegexCache} (hcache : Compiled globRegexCache) (pattern : JsString) :
    Compiled (cacheRegex pattern (globRegex pattern) globRegexCache) := by
  unfold Glob.cacheRegex
  dsimp only
  split
  · exact compiled_empty.set pattern
  · exact hcache.set pattern

/-- A call gives the answer of the pattern and leaves the cache as it should be. -/
def Answers (call : GlobRegexCache → Except JsError (Bool × GlobRegexCache)) (matched : Bool) : Prop :=
  ∀ globRegexCache, Compiled globRegexCache → ∃ later, call globRegexCache = .ok (matched, later) ∧ Compiled later

theorem matchOne_answers (pattern s : JsString) : Answers (matchOne pattern s) (matchGlobOne pattern s) := by
  intro globRegexCache hcache
  unfold matchOne matchGlobOne
  split_ifs with hall hliteral
  · exact ⟨globRegexCache, rfl, hcache⟩
  · exact ⟨globRegexCache, rfl, hcache⟩
  · cases hget : globRegexCache.get pattern with
    | some regex =>
        refine ⟨globRegexCache, ?_, hcache⟩
        dsimp only
        rw [hcache pattern regex hget, test_globRegex]
    | none =>
        refine ⟨cacheRegex pattern (globRegex pattern) globRegexCache, ?_, hcache.cacheRegex pattern⟩
        dsimp only
        rw [newRegExp_globSource, ← test_globRegex]
        rfl

theorem matchSome_answers (s : JsString) (patterns : List JsString) :
    Answers (matchSome s patterns) (patterns.any fun pattern => matchGlobOne pattern s) := by
  induction patterns with
  | nil => exact fun globRegexCache hcache => ⟨globRegexCache, rfl, hcache⟩
  | cons pattern patterns ih =>
      intro globRegexCache hcache
      obtain ⟨next, hcall, hnext⟩ := matchOne_answers pattern s globRegexCache hcache
      rw [matchSome, hcall, List.any_cons]
      cases matchGlobOne pattern s with
      | true => exact ⟨next, rfl, hnext⟩
      | false => exact ih next hnext

theorem matchGlob_answers (pattern : MatchPattern) (s : JsString) :
    Answers (matchGlob pattern s) (GitWarp.matchGlob pattern s) := by
  cases pattern with
  | one pattern => exact matchOne_answers pattern s
  | any patterns => exact matchSome_answers s patterns

theorem cacheAfter_compiled (calls : List (MatchPattern × JsString)) :
    ∃ globRegexCache, cacheAfter calls = .ok globRegexCache ∧ Compiled globRegexCache := by
  refine foldlM_keeps ?_ compiled_empty
  intro globRegexCache hcache call _
  obtain ⟨later, hcall, hlater⟩ := matchGlob_answers call.1 call.2 globRegexCache hcache
  rw [hcall]
  exact ⟨later, rfl, hlater⟩

/-- No call throws, and its answer is that of the pattern whatever was asked before. -/
theorem answer_eq (calls : List (MatchPattern × JsString)) (pattern : MatchPattern) (s : JsString) :
    answer calls pattern s = .ok (GitWarp.matchGlob pattern s) := by
  obtain ⟨globRegexCache, hcalls, hcache⟩ := cacheAfter_compiled calls
  obtain ⟨later, hcall, -⟩ := matchGlob_answers pattern s globRegexCache hcache
  rw [answer, hcalls]
  change (do return (← matchGlob pattern s globRegexCache).1 : Except JsError Bool) = _
  rw [hcall]
  rfl

/-! ### The glob language -/

/-- What a character of a pattern stands for. -/
def Piece (c : CodeUnit) (piece : JsString) : Prop := c = star ∨ piece = [c]

/-- A string that can be cut into pieces for the characters of the pattern, in their order. -/
def InGlob (pattern s : JsString) : Prop := ∃ pieces, List.Forall₂ Piece pattern pieces ∧ pieces.flatten = s

def patterns : MatchPattern → List JsString
  | .one pattern => [pattern]
  | .any patterns => patterns

def InLanguage (pattern : MatchPattern) (s : JsString) : Prop := ∃ p ∈ patterns pattern, InGlob p s

def lineEnds (s : JsString) : Nat := s.countP isLineTerminator

/-- The pieces that the regular expression allows: a star stands for a part of a line. -/
def LinePiece (c : CodeUnit) (piece : JsString) : Prop := if c = star then lineEnds piece = 0 else piece = [c]

theorem lineEnds_cons_star (pattern : JsString) : lineEnds (star :: pattern) = lineEnds pattern := by
  rw [lineEnds, List.countP_cons_of_neg (by decide)]
  rfl

/-- The line ends of a pattern are in every string of its language, and where there are no others each star stands for a
part of a line. -/
theorem lineEnds_le {pattern : JsString} {pieces : List JsString} (hpieces : List.Forall₂ Piece pattern pieces) :
    lineEnds pattern ≤ lineEnds pieces.flatten ∧
      (lineEnds pieces.flatten = lineEnds pattern ↔ List.Forall₂ LinePiece pattern pieces) := by
  induction hpieces with
  | nil => exact ⟨Nat.le_refl _, fun _ => .nil, fun _ => rfl⟩
  | @cons c piece pattern pieces hpiece hrest ih =>
      have hflatten : lineEnds (piece :: pieces).flatten = lineEnds piece + lineEnds pieces.flatten := by
        rw [lineEnds, List.flatten_cons, List.countP_append]
        rfl
      obtain ⟨hle, hiff⟩ := ih
      rw [hflatten, List.forall₂_cons, ← hiff, LinePiece]
      by_cases hstar : c = star
      · rw [hstar, lineEnds_cons_star, if_pos rfl]
        omega
      · have hsingle : piece = [c] := hpiece.resolve_left hstar
        have hcons : lineEnds (c :: pattern) = lineEnds piece + lineEnds pattern := by
          rw [hsingle, lineEnds, ← List.singleton_append, List.countP_append]
          rfl
        rw [hcons, if_neg hstar, and_iff_right hsingle]
        omega

theorem LinePiece.piece {c : CodeUnit} {piece : JsString} (h : LinePiece c piece) : Piece c piece := by
  unfold LinePiece at h
  split at h
  · rename_i hstar
    exact Or.inl hstar
  · exact Or.inr h

theorem globRegexTest_iff (pattern s : JsString) : globRegexTest pattern s = true ↔
    ∃ pieces, List.Forall₂ LinePiece pattern pieces ∧ pieces.flatten = s := by
  have hatoms : ∀ term ∈ pattern.map globTerm, term.IsAtom := by
    intro term hterm
    obtain ⟨c, -, rfl⟩ := List.mem_map.mp hterm
    rw [globTerm]
    split <;> exact trivial
  have hpiece : ∀ c piece, RegExp.Piece (fun c => !isLineTerminator c) (globTerm c) piece ↔ LinePiece c piece := by
    intro c piece
    rw [globTerm, LinePiece]
    split
    · rw [lineEnds, List.countP_eq_zero]
      simp [RegExp.Piece, Atom.accepts]
    · simp [RegExp.Piece, Atom.accepts]
  rw [← test_globRegex, test, globRegex, test_anchored_iff _ hatoms]
  simp only [List.forall₂_map_left_iff, hpiece]

theorem inGlob_star (s : JsString) : InGlob [star] s := ⟨[s], .cons (Or.inl rfl) .nil, List.append_nil s⟩

/-- Without a star only the pattern itself is matched. -/
theorem inGlob_literal_iff {pattern : JsString} (hliteral : star ∉ pattern) (s : JsString) :
    InGlob pattern s ↔ pattern = s := by
  induction pattern generalizing s with
  | nil =>
      constructor
      · rintro ⟨pieces, hpieces, rfl⟩
        rw [List.forall₂_nil_left_iff.mp hpieces, List.flatten_nil]
      · rintro rfl
        exact ⟨[], .nil, rfl⟩
  | cons c pattern ih =>
      obtain ⟨hc, hrest⟩ := not_or.mp (mt List.mem_cons.mpr hliteral)
      constructor
      · rintro ⟨pieces, hpieces, rfl⟩
        obtain ⟨piece, pieces, hpiece, htail, rfl⟩ := List.forall₂_cons_left_iff.mp hpieces
        rw [hpiece.resolve_left (Ne.symm hc), List.flatten_cons, (ih hrest _).mp ⟨pieces, htail, rfl⟩]
        rfl
      · rintro rfl
        obtain ⟨pieces, hpieces, hflatten⟩ := (ih hrest pattern).mpr rfl
        exact ⟨[c] :: pieces, .cons (Or.inr rfl) hpieces, by rw [List.flatten_cons, hflatten]; rfl⟩

/-- A pattern matches the strings of its language that have no line ends but its own. -/
theorem matchGlobOne_iff (pattern s : JsString) : matchGlobOne pattern s = true ↔
    InGlob pattern s ∧ (pattern = [star] ∨ lineEnds s = lineEnds pattern) := by
  unfold matchGlobOne
  split_ifs with hall hliteral
  · rw [hall]
    exact iff_of_true rfl ⟨inGlob_star s, Or.inl rfl⟩
  · rw [decide_eq_true_iff, inGlob_literal_iff (by simpa using hliteral)]
    constructor
    · rintro rfl
      exact ⟨rfl, Or.inr rfl⟩
    · exact fun h => h.1
  · rw [globRegexTest_iff, or_iff_right hall]
    constructor
    · rintro ⟨pieces, hpieces, rfl⟩
      have hpieces' : List.Forall₂ Piece pattern pieces := hpieces.imp fun _ _ h => h.piece
      exact ⟨⟨pieces, hpieces', rfl⟩, (lineEnds_le hpieces').2.mpr hpieces⟩
    · rintro ⟨⟨pieces, hpieces, rfl⟩, hends⟩
      exact ⟨pieces, (lineEnds_le hpieces).2.mp hends, rfl⟩

theorem matchGlob_iff (pattern : MatchPattern) (s : JsString) : GitWarp.matchGlob pattern s = true ↔
    ∃ p ∈ patterns pattern, InGlob p s ∧ (p = [star] ∨ lineEnds s = lineEnds p) := by
  cases pattern with
  | one pattern => simp only [GitWarp.matchGlob, patterns, List.mem_singleton, exists_eq_left, matchGlobOne_iff]
  | any patterns => simp only [GitWarp.matchGlob, Glob.patterns, List.any_eq_true, matchGlobOne_iff]

/-- After any calls the answer is that of a fresh process, and it is `true` exactly on the language of the pattern. -/
def Recognises (calls : List (MatchPattern × JsString)) (pattern : MatchPattern) (s : JsString) : Prop :=
  answer calls pattern s = answer [] pattern s ∧
    ∃ matched, answer calls pattern s = .ok matched ∧ (matched = true ↔ InLanguage pattern s)

/-- A string of the language is one that some pattern matches as a whole or with no line ends but the pattern's own. -/
def KeepsLines (pattern : MatchPattern) (s : JsString) : Prop :=
  InLanguage pattern s → ∃ p ∈ patterns pattern, InGlob p s ∧ (p = [star] ∨ lineEnds s = lineEnds p)

/-- Whatever was matched before, `matchGlob` recognises the language of a pattern exactly on the strings whose line ends
are written in the pattern, as a star matches none of them. -/
theorem recognises_iff (calls : List (MatchPattern × JsString)) (pattern : MatchPattern) (s : JsString) :
    Recognises calls pattern s ↔ KeepsLines pattern s := by
  have hsound : GitWarp.matchGlob pattern s = true → InLanguage pattern s := by
    intro h
    obtain ⟨p, hp, hglob, -⟩ := (matchGlob_iff pattern s).mp h
    exact ⟨p, hp, hglob⟩
  rw [Recognises, KeepsLines, answer_eq, answer_eq, eq_self, true_and, ← matchGlob_iff]
  constructor
  · rintro ⟨matched, hanswer, hiff⟩ hlanguage
    rw [Except.ok.inj hanswer]
    exact hiff.mpr hlanguage
  · intro hkeeps
    exact ⟨_, rfl, hsound, hkeeps⟩

/-- `a*` does not match `a` followed by a line feed. -/
theorem not_recognises_lineFeed : ¬ Recognises [] (.one (js "a*")) (js "a\n") := by
  rintro ⟨-, matched, hanswer, hiff⟩
  have hlanguage : InLanguage (.one (js "a*")) (js "a\n") :=
    ⟨js "a*", List.mem_singleton_self _, [js "a", js "\n"], .cons (Or.inr rfl) (.cons (Or.inl rfl) .nil), rfl⟩
  rw [answer_eq] at hanswer
  have hmatched : matched = false := (Except.ok.inj hanswer).symm
  rw [hmatched] at hiff
  exact Bool.false_ne_true (hiff.mpr hlanguage)

end Glob

end GitWarp
