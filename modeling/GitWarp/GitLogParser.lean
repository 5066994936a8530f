import GitWarp.LibraryPaths
import GitWarp.LibraryUtf8
import GitWarp.LibraryWhile

/-! The parser of the log of a repository. It cuts a stream of bytes at the NUL bytes and reads what stands between
two of them as a record, however the stream comes in chunks. -/

namespace GitWarp
open Js

/-- `textEncode(str)` -/
def textEncode (str : JsString) : List UInt8 := Utf8.encode (Utf8.scalars str)

/-- `textDecode(bytes)`: the decoder is not fatal, and takes a byte order mark from the start. -/
def textDecode (bytes : List UInt8) : JsString :=
  match Utf8.decode bytes with
  | [] => []
  | c :: text => if c = Utf8.byteOrderMark then Utf8.units text else Utf8.units (c :: text)

/-- A node; its constructor refuses an empty sha and an empty message. -/
structure GraphNode where
  sha : JsString
  message : JsString
  author : JsString
  date : JsString
  parents : List JsString
  sha_ne : sha ≠ []
  message_ne : message ≠ []
  deriving DecidableEq

namespace GitLogParser

/-- `'\n'` -/
def newline : CodeUnit := 10

/-- `' '` -/
def space : CodeUnit := 32

def parseNode (block : JsString) : Option GraphNode :=
  let lines := block.splitOn newline
  if lines.length < 4 then none
  else
    let sha := lines.getD 0 []
    if hsha : sha = [] then none
    else
      let author := lines.getD 1 []
      let date := lines.getD 2 []
      let parents := if lines.getD 3 [] ≠ [] then ((lines.getD 3 []).splitOn space).filter fun parent => parent ≠ [] else []
      let message := [newline].intercalate (lines.drop 4)
      if hmessage : message = [] then none
      else some ⟨sha, message, author, date, parents, hsha, hmessage⟩

/-- A chunk of the stream. -/
inductive Chunk where
  | text (str : JsString)
  | binary (bytes : List UInt8)

def Chunk.toBytes : Chunk → List UInt8
  | .text str => textEncode str
  | .binary bytes => bytes

structure Parse where
  buffer : List UInt8
  yielded : List GraphNode

/-- One turn of the loop that looks for NUL bytes. -/
def recordStep (s : Parse) : Option Parse :=
  match s.buffer.idxOf? 0 with
  | none => none
  | some nullIndex =>
      let block := textDecode (s.buffer.take nullIndex)
      some ⟨s.buffer.drop (nullIndex + 1), s.yielded ++ (parseNode block).toList⟩

/-- Each turn takes a byte at least. -/
def readChunk (s : Parse) (chunk : Chunk) : Parse :=
  let buffer := s.buffer ++ chunk.toBytes
  While.loop recordStep buffer.length ⟨buffer, s.yielded⟩

def parse (stream : List Chunk) : List GraphNode :=
  let s := stream.foldl readChunk ⟨[], []⟩
  if s.buffer.length > 0 then
    let block := textDecode s.buffer
    if block ≠ [] then s.yielded ++ (parseNode block).toList else s.yielded
  else s.yielded

/-! ### Chunks -/

/-- The nodes of the blocks between the NUL bytes. -/
def nodesOf (bytes : List UInt8) : List GraphNode := (bytes.splitOn 0).filterMap fun block => parseNode (textDecode block)

theorem parseNode_nil : parseNode [] = none := rfl

theorem nodesOf_of_not_mem {block : List UInt8} (hblock : 0 ∉ block) :
    nodesOf block = (parseNode (textDecode block)).toList := by
  rw [nodesOf, List.splitOn_eq_singleton hblock, List.filterMap_cons]
  cases parseNode (textDecode block) <;> rfl

theorem nodesOf_append {block : List UInt8} (hblock : 0 ∉ block) (rest : List UInt8) :
    nodesOf (block ++ 0 :: rest) = (parseNode (textDecode block)).toList ++ nodesOf rest := by
  rw [nodesOf, List.splitOn_append_cons_self_of_not_mem hblock, List.filterMap_cons]
  cases parseNode (textDecode block) <;> rfl

/-- What is yielded, and what will be of the buffer and of whatever comes after it, is what the bytes hold. -/
def Reads (bytes : List UInt8) (s : Parse) : Prop := ∀ rest, s.yielded ++ nodesOf (s.buffer ++ rest) = nodesOf (bytes ++ rest)

theorem idxOf?_spec {buffer : List UInt8} {nullIndex : Nat} (h : buffer.idxOf? 0 = some nullIndex) :
    0 ∉ buffer.take nullIndex ∧ buffer = buffer.take nullIndex ++ 0 :: buffer.drop (nullIndex + 1) := by
  obtain ⟨hlt, hnull, hbefore⟩ := List.idxOf?_eq_some_iff.mp h
  constructor
  · intro hmem
    obtain ⟨j, hj, hget⟩ := List.mem_iff_getElem.mp hmem
    rw [List.length_take] at hj
    rw [List.getElem_take] at hget
    exact hbefore j (by omega) hget
  · rw [← hnull, ← List.drop_eq_getElem_cons hlt, List.take_append_drop]

theorem recordStep_spec {bytes : List UInt8} {s s' : Parse} (h : Reads bytes s) (hstep : recordStep s = some s') :
    Reads bytes s' ∧ s'.buffer.length < s.buffer.length := by
  unfold recordStep at hstep
  split at hstep
  · cases hstep
  · rename_i nullIndex hindex
    obtain ⟨hblock, hbuffer⟩ := idxOf?_spec hindex
    cases hstep
    constructor
    · intro rest
      have hrest := h rest
      rw [hbuffer, List.append_assoc, List.cons_append, nodesOf_append hblock] at hrest
      rw [List.append_assoc]
      exact hrest
    · have hlength := congrArg List.length hbuffer
      rw [List.length_append, List.length_cons] at hlength
      dsimp only
      omega

theorem readChunk_spec {bytes : List UInt8} {s : Parse} (h : Reads bytes s) (chunk : Chunk) :
    Reads (bytes ++ chunk.toBytes) (readChunk s chunk) ∧ 0 ∉ (readChunk s chunk).buffer := by
  have hfirst : Reads (bytes ++ chunk.toBytes) ⟨s.buffer ++ chunk.toBytes, s.yielded⟩ := by
    intro rest
    rw [List.append_assoc, List.append_assoc]
    exact h (chunk.toBytes ++ rest)
  have hkept : ∀ t t' : Parse, Reads (bytes ++ chunk.toBytes) t → recordStep t = some t' →
      Reads (bytes ++ chunk.toBytes) t' ∧ t'.buffer.length < t.buffer.length :=
    fun t t' ht hstep => recordStep_spec ht hstep
  have hend := While.loop_invariant (fun t t' ht hstep => (hkept t t' ht hstep).1) (s.buffer ++ chunk.toBytes).length hfirst
  have hstop := While.loop_stops (m := fun t : Parse => t.buffer.length) hkept hfirst (le_refl _)
  unfold readChunk
  dsimp only at hstop ⊢
  generalize While.loop recordStep (s.buffer ++ chunk.toBytes).length ⟨s.buffer ++ chunk.toBytes, s.yielded⟩ = last
    at hend hstop ⊢
  refine ⟨hend, ?_⟩
  unfold recordStep at hstop
  split at hstop
  · rename_i hnone
    exact List.idxOf?_eq_none_iff.mp hnone
  · cases hstop

/-- What is yielded depends on the bytes, not on the chunks in which they come. -/
theorem parse_eq (stream : List Chunk) : parse stream = nodesOf (stream.flatMap Chunk.toBytes) := by
  have hloop : ∀ (stream : List Chunk) (bytes : List UInt8) (s : Parse), Reads bytes s → 0 ∉ s.buffer →
      Reads (bytes ++ stream.flatMap Chunk.toBytes) (stream.foldl readChunk s) ∧ 0 ∉ (stream.foldl readChunk s).buffer := by
    intro stream
    induction stream with
    | nil =>
        intro bytes s h hnull
        rw [List.flatMap_nil, List.append_nil]
        exact ⟨h, hnull⟩
    | cons chunk rest ih =>
        intro bytes s h _
        obtain ⟨hread, hnull⟩ := readChunk_spec h chunk
        rw [List.flatMap_cons, ← List.append_assoc]
        exact ih _ _ hread hnull
  obtain ⟨hread, hnull⟩ := hloop stream [] ⟨[], []⟩ (fun rest => rfl) List.not_mem_nil
  have hall := hread []
  rw [List.append_nil, List.append_nil, List.nil_append, nodesOf_of_not_mem hnull] at hall
  rw [← hall, parse]
  dsimp only
  split
  · split
    · rfl
    · rename_i hblock
      rw [not_not] at hblock
      rw [hblock, parseNode_nil]
      exact (List.append_nil _).symm
  · rename_i hempty
    rw [List.eq_nil_of_length_eq_zero (Nat.eq_zero_of_not_pos hempty)]
    exact (List.append_nil _).symm

/-! ### Blocks -/

/-- A block that is no record: it has no five lines of which the first, and what follows the fourth, are not empty. -/
def Malformed (block : JsString) : Prop :=
  ∀ sha author date parents message, newline ∉ sha → newline ∉ author → newline ∉ date → newline ∉ parents → sha ≠ [] →
    message ≠ [] →
      block ≠ sha ++ newline :: (author ++ newline :: (date ++ newline :: (parents ++ newline :: message)))

theorem parseNode_shaped {sha author date parents message : JsString} (hsha : newline ∉ sha) (hauthor : newline ∉ author)
    (hdate : newline ∉ date) (hparents : newline ∉ parents) (hne : sha ≠ []) (hmessage : message ≠ []) :
    parseNode (sha ++ newline :: (author ++ newline :: (date ++ newline :: (parents ++ newline :: message)))) =
      some ⟨sha, message, author, date, if parents ≠ [] then (parents.splitOn space).filter fun parent => parent ≠ [] else [],
        hne, hmessage⟩ := by
  have hlines : (sha ++ newline :: (author ++ newline :: (date ++ newline :: (parents ++ newline :: message)))).splitOn newline =
      sha :: author :: date :: parents :: message.splitOn newline := by
    rw [List.splitOn_append_cons_self_of_not_mem hsha, List.splitOn_append_cons_self_of_not_mem hauthor,
      List.splitOn_append_cons_self_of_not_mem hdate, List.splitOn_append_cons_self_of_not_mem hparents]
  have hjoined : [newline].intercalate (message.splitOn newline) = message := List.intercalate_splitOn newline
  unfold parseNode
  dsimp only
  rw [if_neg (by rw [hlines]; simp)]
  simp only [hlines, List.getD_cons_zero, List.getD_cons_succ, List.drop_succ_cons, List.drop_zero, hjoined]
  rw [dif_neg hne, dif_neg hmessage]

theorem parseNode_of_malformed {block : JsString} (h : Malformed block) : parseNode block = none := by
  have hjoined : [newline].intercalate (block.splitOn newline) = block := List.intercalate_splitOn newline
  have hline : ∀ line ∈ block.splitOn newline, newline ∉ line := fun line hmem => Paths.not_mem_of_mem_splitOn hmem
  unfold parseNode
  dsimp only
  generalize block.splitOn newline = lines at hjoined hline
  split
  · rfl
  · rename_i hlength
    split
    · rfl
    · rename_i hsha
      split
      · rfl
      · rename_i hmessage
        exfalso
        rcases lines with - | ⟨sha, - | ⟨author, - | ⟨date, - | ⟨parents, - | ⟨first, rest⟩⟩⟩⟩⟩
        · exact hlength (by simp)
        · exact hlength (by simp)
        · exact hlength (by simp)
        · exact hlength (by simp)
        · exact hmessage rfl
        · simp only [List.forall_mem_cons] at hline
          refine h sha author date parents ([newline].intercalate (first :: rest)) hline.1 hline.2.1 hline.2.2.1 hline.2.2.2.1
            hsha hmessage ?_
          rw [← hjoined]
          simp only [List.intercalate_cons_cons, List.append_assoc, List.singleton_append]

/-! ### Records -/

def nul : Char := Char.ofNat 0

def lineFeed : Char := Char.ofNat 10

def blank : Char := Char.ofNat 32

def isHexChar (c : Char) : Bool :=
  (48 ≤ c.toNat && c.toNat ≤ 57) || (65 ≤ c.toNat && c.toNat ≤ 70) || (97 ≤ c.toNat && c.toNat ≤ 102)

/-- A record of a log. -/
structure LogRecord where
  sha : List Char
  author : List Char
  date : List Char
  parents : List (List Char)
  message : List Char
  sha_ne : sha ≠ []
  sha_hex : ∀ c ∈ sha, isHexChar c = true
  author_line : lineFeed ∉ author
  date_line : lineFeed ∉ date
  parents_word : ∀ parent ∈ parents, blank ∉ parent
  message_ne : message ≠ []
  message_nul : nul ∉ message

/-- What else keeps the fields of a record apart: no NUL in any of them, and in a parent no line end, but something. -/
structure LogRecord.Separable (r : LogRecord) : Prop where
  author : nul ∉ r.author
  date : nul ∉ r.date
  parents : ∀ parent ∈ r.parents, parent ≠ [] ∧ lineFeed ∉ parent ∧ nul ∉ parent

def LogRecord.text (r : LogRecord) : List Char :=
  r.sha ++ lineFeed :: (r.author ++ lineFeed :: (r.date ++ lineFeed :: ([blank].intercalate r.parents ++ lineFeed :: r.message)))

theorem units_ne_nil {text : List Char} (h : text ≠ []) : Utf8.units text ≠ [] := by
  intro hnil
  refine h ?_
  rw [← Utf8.scalars_units text, hnil]
  rfl

/-- The node that a record is read as. -/
def LogRecord.node (r : LogRecord) : GraphNode where
  sha := Utf8.units r.sha
  message := Utf8.units r.message
  author := Utf8.units r.author
  date := Utf8.units r.date
  parents := r.parents.map Utf8.units
  sha_ne := units_ne_nil r.sha_ne
  message_ne := units_ne_nil r.message_ne

theorem units_append_line (first rest : List Char) :
    Utf8.units (first ++ lineFeed :: rest) = Utf8.units first ++ newline :: Utf8.units rest := by
  rw [Utf8.units, List.flatMap_append, List.flatMap_cons]
  rfl

theorem units_intercalate (words : List (List Char)) :
    Utf8.units ([blank].intercalate words) = [space].intercalate (words.map Utf8.units) := by
  induction words with
  | nil => rfl
  | cons word rest ih =>
      cases rest with
      | nil => rw [List.intercalate_singleton, List.map_singleton, List.intercalate_singleton]
      | cons word' rest =>
          rw [List.intercalate_cons_cons, List.map_cons, List.map_cons, List.intercalate_cons_cons, ← List.map_cons, ← ih,
            Utf8.units, List.flatMap_append, List.flatMap_append]
          rfl

theorem mem_intercalate {c : Char} {words : List (List Char)} (h : c ∈ [blank].intercalate words) :
    c = blank ∨ ∃ word ∈ words, c ∈ word := by
  induction words with
  | nil => cases h
  | cons word rest ih =>
      cases rest with
      | nil =>
          rw [List.intercalate_singleton] at h
          exact .inr ⟨word, List.mem_cons_self, h⟩
      | cons word' rest =>
          rw [List.intercalate_cons_cons, List.append_assoc, List.mem_append, List.mem_append] at h
          rcases h with h | h | h
          · exact .inr ⟨word, List.mem_cons_self, h⟩
          · exact .inl (List.mem_singleton.mp h)
          · rcases ih h with hsep | ⟨other, hother, hc⟩
            · exact .inl hsep
            · exact .inr ⟨other, List.mem_cons_of_mem _ hother, hc⟩

theorem newline_not_mem_units {text : List Char} (h : lineFeed ∉ text) : newline ∉ Utf8.units text := by
  rw [Utf8.mem_units_iff (by decide)]
  exact h

/-- A text that does not begin with a byte order mark is decoded as a whole. -/
theorem textDecode_encode {text : List Char} (h : ∀ c rest, text = c :: rest → c ≠ Utf8.byteOrderMark) :
    textDecode (Utf8.encode text) = Utf8.units text := by
  rw [textDecode, Utf8.decode_encode]
  cases text with
  | nil => rfl
  | cons c rest => exact if_neg (h c rest rfl)

theorem textEncode_units (text : List Char) : textEncode (Utf8.units text) = Utf8.encode text := by
  rw [textEncode, Utf8.scalars_units]

namespace LogRecord

variable {r : LogRecord}

theorem hex_not_mem {c : Char} (hc : isHexChar c = false) : c ∉ r.sha := by
  intro hmem
  rw [r.sha_hex c hmem] at hc
  cases hc

theorem parseNode_text (h : r.Separable) : parseNode (Utf8.units r.text) = some r.node := by
  have hparents : lineFeed ∉ [blank].intercalate r.parents := by
    intro hmem
    rcases mem_intercalate hmem with heq | ⟨parent, hparent, hline⟩
    · exact absurd heq (by decide)
    · exact (h.parents parent hparent).2.1 hline
  have hwords : (if Utf8.units ([blank].intercalate r.parents) ≠ [] then
      ((Utf8.units ([blank].intercalate r.parents)).splitOn space).filter fun parent => parent ≠ [] else []) =
        r.parents.map Utf8.units := by
    rw [units_intercalate]
    by_cases hnone : r.parents = []
    · rw [hnone]
      rfl
    · have hclean : ∀ word ∈ r.parents.map Utf8.units, space ∉ word := by
        intro word hword
        obtain ⟨parent, hparent, rfl⟩ := List.mem_map.mp hword
        rw [Utf8.mem_units_iff (by decide)]
        exact r.parents_word parent hparent
      have hsplit := List.splitOn_intercalate space hclean fun heq => hnone (List.map_eq_nil_iff.mp heq)
      have hfull : ∀ word ∈ r.parents.map Utf8.units, decide (word ≠ []) = true := by
        intro word hword
        obtain ⟨parent, hparent, rfl⟩ := List.mem_map.mp hword
        exact decide_eq_true (units_ne_nil (h.parents parent hparent).1)
      have hline : [space].intercalate (r.parents.map Utf8.units) ≠ [] := by
        intro hnil
        rw [hnil] at hsplit
        have hempty := hfull [] (hsplit ▸ List.mem_singleton_self _)
        exact absurd hempty (by decide)
      rw [if_pos hline, hsplit]
      exact List.filter_eq_self.mpr hfull
  rw [text, units_append_line, units_append_line, units_append_line, units_append_line,
    parseNode_shaped (newline_not_mem_units (hex_not_mem (by decide))) (newline_not_mem_units r.author_line)
      (newline_not_mem_units r.date_line) (newline_not_mem_units hparents) (units_ne_nil r.sha_ne) (units_ne_nil r.message_ne)]
  simp only [hwords, node]

theorem textDecode_text : textDecode (Utf8.encode r.text) = Utf8.units r.text := by
  refine textDecode_encode ?_
  rintro c rest heq rfl
  obtain ⟨first, sha, hsha⟩ := List.exists_cons_of_ne_nil r.sha_ne
  rw [text, hsha, List.cons_append, List.cons.injEq] at heq
  have hmark : Utf8.byteOrderMark ∉ r.sha := hex_not_mem (by decide)
  rw [hsha, heq.1] at hmark
  exact hmark List.mem_cons_self

theorem zero_not_mem (h : r.Separable) : 0 ∉ Utf8.encode r.text := by
  have hparents : nul ∉ [blank].intercalate r.parents := by
    intro hmem
    rcases mem_intercalate hmem with heq | ⟨parent, hparent, hnul⟩
    · exact absurd heq (by decide)
    · exact (h.parents parent hparent).2.2 hnul
  have hline : nul ≠ lineFeed := by decide
  rw [Utf8.zero_mem_encode_iff]
  change nul ∉ r.text
  rw [text]
  simp only [List.mem_append, List.mem_cons, hline, false_or, not_or]
  exact ⟨hex_not_mem (by decide), h.author, h.date, hparents, r.message_nul⟩

end LogRecord

/-! ### The log as a whole -/

/-- A record of the log, or a block that is none. -/
inductive LogItem where
  | record (r : LogRecord)
  | other (block : List UInt8)

def LogItem.bytes : LogItem → List UInt8
  | .record r => Utf8.encode r.text
  | .other block => block

def LogItem.node : LogItem → Option GraphNode
  | .record r => some r.node
  | .other _ => none

/-- The blocks, separated by NUL bytes, with or without a final one. -/
def logStream (items : List LogItem) (final : Bool) : List UInt8 :=
  [0].intercalate (items.map LogItem.bytes) ++ if final then [0] else []

/-- A final NUL byte changes nothing. -/
theorem nodesOf_logStream (items : List LogItem) (final : Bool) :
    nodesOf (logStream items final) = nodesOf ([0].intercalate (items.map LogItem.bytes)) := by
  rw [logStream]
  cases final with
  | false => rw [if_neg Bool.false_ne_true, List.append_nil]
  | true =>
      rw [if_pos rfl, nodesOf, List.splitOn_append_cons_self, List.filterMap_append]
      exact List.append_nil _

/-- What is parsed from the chunks of a log is its records, in order and with the bytes of their messages. -/
theorem parse_logStream (items : List LogItem) (final : Bool) (stream : List Chunk)
    (hrecords : ∀ r, LogItem.record r ∈ items → r.Separable)
    (hothers : ∀ block, LogItem.other block ∈ items → 0 ∉ block ∧ Malformed (textDecode block))
    (hcut : stream.flatMap Chunk.toBytes = logStream items final) :
    parse stream = items.filterMap LogItem.node ∧
      ∀ r, LogItem.record r ∈ items → textEncode r.node.message = Utf8.encode r.message := by
  refine ⟨?_, fun r _ => textEncode_units r.message⟩
  rw [parse_eq, hcut, nodesOf_logStream]
  have hclean : ∀ block ∈ items.map LogItem.bytes, 0 ∉ block := by
    intro block hblock
    obtain ⟨item, hitem, rfl⟩ := List.mem_map.mp hblock
    cases item with
    | record r => exact LogRecord.zero_not_mem (hrecords r hitem)
    | other block => exact (hothers block hitem).1
  have hnodes : ∀ item ∈ items, parseNode (textDecode item.bytes) = item.node := by
    intro item hitem
    cases item with
    | record r => exact (congrArg parseNode LogRecord.textDecode_text).trans (LogRecord.parseNode_text (hrecords r hitem))
    | other block => exact parseNode_of_malformed (hothers block hitem).2
  by_cases hnone : items = []
  · rw [hnone]
    rfl
  · rw [nodesOf, List.splitOn_intercalate 0 hclean fun heq => hnone (List.map_eq_nil_iff.mp heq), List.filterMap_map]
    exact List.filterMap_congr hnodes

/-- A record of one author, one parent and a message of one character of two bytes. -/
def shortRecord (author : List Char) (hauthor : lineFeed ∉ author) (parents : List (List Char))
    (hparents : ∀ parent ∈ parents, blank ∉ parent) : LogRecord where
  sha := "ab".toList
  author := author
  date := "d".toList
  parents := parents
  message := [Char.ofNat 233]
  sha_ne := by decide
  sha_hex := List.all_eq_true.mp (by decide)
  author_line := hauthor
  date_line := by decide
  parents_word := hparents
  message_ne := by decide
  message_nul := by decide

def plainRecord : LogRecord := shortRecord "A".toList (by decide) ["c".toList] (by decide)

/-- The stream is cut inside the character of the message, and an empty record stands before it. -/
theorem parse_logStream_cut :
    parse [.binary ((logStream [.other [], .record plainRecord] false).take 12), .binary [],
      .binary ((logStream [.other [], .record plainRecord] false).drop 12)] = [plainRecord.node] ∧
      ∀ r, LogItem.record r ∈ [LogItem.other [], .record plainRecord] → textEncode r.node.message = Utf8.encode r.message := by
  refine parse_logStream [.other [], .record plainRecord] false _ ?_ ?_ (by decide)
  · intro r hr
    rcases List.mem_pair.mp hr with hr | hr
    · cases hr
    · cases hr
      exact ⟨by decide, by decide, by decide⟩
  · intro block hblock
    rcases List.mem_pair.mp hblock with hblock | hblock
    · cases hblock
      refine ⟨List.not_mem_nil, ?_⟩
      intro sha author date parents message _ _ _ _ hsha _ heq
      exact hsha (List.append_eq_nil_iff.mp heq.symm).1
    · cases hblock

/-- An author with a NUL cuts its record in two; an empty parent is dropped, and one with a line end goes into the
message. -/
theorem parse_ne_records :
    parse [.binary (logStream [.record (shortRecord [Char.ofNat 65, nul] (by decide) [] (by decide))] true)] ≠
        [(shortRecord [Char.ofNat 65, nul] (by decide) [] (by decide)).node] ∧
      parse [.binary (logStream [.record (shortRecord [] (by decide) [[]] (by decide))] true)] ≠
        [(shortRecord [] (by decide) [[]] (by decide)).node] ∧
      parse [.binary (logStream [.record (shortRecord [] (by decide) [[lineFeed]] (by decide))] true)] ≠
        [(shortRecord [] (by decide) [[lineFeed]] (by decide)).node] := by
  decide

end GitLogParser

end GitWarp
