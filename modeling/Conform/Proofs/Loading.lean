import Mathlib.Data.List.Forall2
import Conform.Proofs.Listing

namespace Conform.CommandLine

/-- The lines of a text. A line ends with a line feed or with a carriage return and a line feed, none of which
belongs to it. What stands behind the last line feed is a line if it is not empty. -/
inductive LinesOf : List Char → List (List Char) → Prop
  | none : LinesOf [] []
  | last {line : List Char} (some : line ≠ []) (whole : '\n' ∉ line) : LinesOf line [line]
  | feed {line rest : List Char} {lines : List (List Char)} (whole : '\n' ∉ line) (bare : line.getLast? ≠ some '\r')
      (later : LinesOf rest lines) : LinesOf (line ++ '\n' :: rest) (line :: lines)
  | returnFeed {line rest : List Char} {lines : List (List Char)} (whole : '\n' ∉ line)
      (later : LinesOf rest lines) : LinesOf (line ++ '\r' :: '\n' :: rest) (line :: lines)

section Lines

variable {c : Char} {text rest line : List Char} {lines : List (List Char)}

theorem LinesOf.ne_nil (split : LinesOf text lines) (some : text ≠ []) : lines ≠ [] := by
  cases split with
  | none => exact absurd rfl some
  | last | feed | returnFeed => exact List.cons_ne_nil _ _

/-- A character that begins no line break belongs to the line that goes on behind it. -/
theorem LinesOf.cons (split : LinesOf rest (line :: lines)) (inLine : c ≠ '\n')
    (bare : c = '\r' → rest.head? ≠ some '\n') : LinesOf (c :: rest) ((c :: line) :: lines) := by
  have whole (wholeLine : '\n' ∉ line) : '\n' ∉ c :: line := List.not_mem_cons_of_ne_of_not_mem inLine.symm wholeLine
  cases split with
  | last _ wholeLine => exact .last (List.cons_ne_nil c rest) (whole wholeLine)
  | feed wholeLine last later =>
    refine .feed (whole wholeLine) ?_ later
    cases line with
    | nil => exact fun isReturn => bare (Option.some.inj isReturn) rfl
    | cons d line => rwa [List.getLast?_cons_cons]
  | returnFeed wholeLine later => exact .returnFeed (whole wholeLine) later

/-- Every text is split as the lines of a text are. -/
theorem linesOf_textLines (text : List Char) : LinesOf text (textLines text) := by
  fun_induction textLines text with
  | case1 => exact .none
  | case2 rest ih => exact @LinesOf.feed [] _ _ List.not_mem_nil nofun ih
  | case3 rest ih => exact @LinesOf.returnFeed [] _ _ List.not_mem_nil ih
  | case4 c inLine first others d rest bare behind ih =>
    rw [behind] at ih ⊢
    refine ih.cons inLine ?_
    rintro rfl starts
    exact bare rest rfl (by rw [Option.some.inj starts])
  | case5 c rest inLine bare short ih => cases rest with
    | nil => exact .last (List.cons_ne_nil c []) fun feed => inLine (List.mem_singleton.mp feed).symm
    | cons d rest =>
      obtain ⟨first, others, behind⟩ := List.exists_cons_of_ne_nil (ih.ne_nil (List.cons_ne_nil d rest))
      exact (short first others d rest behind rfl).elim

theorem textLines_cons (inLine : c ≠ '\n') (bare : c = '\r' → rest.head? ≠ some '\n') (some : rest ≠ [])
    (behind : textLines rest = line :: lines) : textLines (c :: rest) = (c :: line) :: lines := by
  cases rest with
  | nil => exact absurd rfl some
  | cons d rest =>
    rw [textLines]
    · exact inLine
    · intro rest' isReturn follows
      exact bare isReturn (follows ▸ rfl)
    · exact behind

/-- A line without a break stands before what follows it. -/
theorem textLines_append {behind : List Char} (whole : '\n' ∉ line)
    (bare : line.getLast? = some '\r' → behind.head? ≠ some '\n') (some : behind ≠ [])
    (breaks : textLines behind = [] :: lines) : textLines (line ++ behind) = line :: lines := by
  induction line with
  | nil => exact breaks
  | cons c line ih =>
    have inLine : c ≠ '\n' := (List.ne_of_not_mem_cons whole).symm
    have more : line ++ behind ≠ [] := List.append_ne_nil_of_right_ne_nil line some
    cases line with
    | nil => exact textLines_cons inLine (fun isReturn => bare (by rw [isReturn]; rfl)) more breaks
    | cons d line =>
      have wholeRest : '\n' ∉ d :: line := List.not_mem_of_not_mem_cons whole
      rw [List.getLast?_cons_cons] at bare
      refine textLines_cons inLine (fun _ starts => wholeRest ?_) more (ih wholeRest bare)
      have same : d = '\n' := Option.some.inj starts
      exact same ▸ List.mem_cons_self

theorem textLines_of_whole (some : line ≠ []) (whole : '\n' ∉ line) : textLines line = [line] := by
  induction line with
  | nil => exact absurd rfl some
  | cons c line ih =>
    have inLine : c ≠ '\n' := (List.ne_of_not_mem_cons whole).symm
    cases line with
    | nil =>
      rw [textLines]
      · rfl
      · exact inLine
      · exact fun _ _ => nofun
      · exact fun _ _ _ _ _ => nofun
    | cons d line =>
      have wholeRest : '\n' ∉ d :: line := List.not_mem_of_not_mem_cons whole
      refine textLines_cons inLine (fun _ starts => wholeRest ?_) (List.cons_ne_nil d line)
        (ih (List.cons_ne_nil d line) wholeRest)
      have same : d = '\n' := Option.some.inj starts
      exact same ▸ List.mem_cons_self

/-- A text has lines in one way only, which is how it is read. -/
theorem linesOf_iff : LinesOf text lines ↔ textLines text = lines := by
  constructor
  · intro split
    induction split with
    | none => rfl
    | last some whole => exact textLines_of_whole some whole
    | feed whole bare later ih =>
      exact textLines_append whole (fun isReturn => absurd isReturn bare) (List.cons_ne_nil _ _) (congrArg _ ih)
    | returnFeed whole later ih => exact textLines_append whole (fun _ => nofun) (List.cons_ne_nil _ _) (congrArg _ ih)
  · rintro rfl
    exact linesOf_textLines text

end Lines

/-- A stretch of a text that is to be one document, and the label of the document. -/
structure Passage where
  label : String
  content : String

/-- The passages of a text, each with its place: the text as a whole, or the lines that are not blank. Lines have their
numbers from one on, and blank ones are counted. -/
inductive PassageOf (path text : String) : (byLines : Bool) → (place : Nat) → Passage → Prop
  | whole : PassageOf path text false 0 ⟨path, text⟩
  | line {lines : List (List Char)} {line : List Char} {index : Nat} (split : LinesOf text.toList lines)
      (there : lines[index]? = some line) (visible : ∃ c ∈ line, isWhite c = false) :
      PassageOf path text true (index + 1) ⟨path ++ ":" ++ toString (index + 1), String.ofList line⟩

/-- The failure to read a passage. -/
def unparsed (byLines : Bool) (label : String) (failure : SyntaxFailure) : CommandError :=
  if byLines then .badLine label failure else .badDocument label failure

def readPassage (byLines : Bool) (passage : Passage) : Except CommandError (List Document) :=
  ((Json.read passage.content).mapError (unparsed byLines passage.label)).map fun value => [⟨passage.label, value⟩]

/-- A passage is a document or spoils the source with the failure of its text. -/
theorem readPassage_settles (byLines : Bool) (passage : Passage) :
    Settles (fun e => ∃ failure, Json.read passage.content = .error failure ∧
        e = unparsed byLines passage.label failure)
      (fun (_ _ : Unit) => False)
      (fun _ document => document.label = passage.label ∧ Json.read passage.content = .ok document.value)
      (readPassage byLines passage) := by
  rw [readPassage]
  cases Json.read passage.content with
  | error failure => exact .failed ⟨failure, rfl, rfl⟩
  | ok value =>
    refine .listed (by simp) (Lists.single () fun _ document => ?_)
    obtain ⟨label, value'⟩ := document
    simp [eq_comm]

section Text

variable {path text : String} {place number : Nat} {passage : Passage} {lines : List (List Char)}

/-- A line with its number as a passage. -/
def linePassage (path : String) (entry : List Char × Nat) : Passage :=
  ⟨path ++ ":" ++ toString entry.2, String.ofList entry.1⟩

/-- The passages in the lines from a number on. -/
def linePassages (path : String) (number : Nat) (lines : List (List Char)) : List Passage :=
  ((lines.zipIdx number).filter fun entry => !entry.1.all isWhite).map (linePassage path)

theorem parseLines_eq_eachDocument (path : String) (number : Nat) (lines : List (List Char)) :
    parseLines path number lines = eachDocument (readPassage true) (linePassages path number lines) := by
  induction lines generalizing number with
  | nil => rfl
  | cons line rest ih =>
    rw [parseLines, linePassages, List.zipIdx_cons, List.filter_cons]
    cases blank : line.all isWhite with
    | true => exact ih (number + 1)
    | false =>
      simp only [Bool.false_eq_true, if_false, Bool.not_false, if_true, List.map_cons, eachDocument]
      rw [ih (number + 1), readPassage, linePassage]
      cases Json.read (String.ofList line) <;> rfl

theorem all_isWhite_eq_false_iff {line : List Char} : line.all isWhite = false ↔ ∃ c ∈ line, isWhite c = false := by
  simp only [List.all_eq_false, Bool.not_eq_true]

theorem passageOf_lines_iff : PassageOf path text true place passage ↔ ∃ entry,
    ((entry ∈ (textLines text.toList).zipIdx 1 ∧ entry.2 = place) ∧ (!entry.1.all isWhite) = true) ∧
      linePassage path entry = passage := by
  simp only [Bool.not_eq_true', all_isWhite_eq_false_iff]
  constructor
  · intro passage
    cases passage with
    | @line lines line index split there visible =>
      rw [← linesOf_iff.mp split] at there
      have member : (line, index + 1) ∈ (textLines text.toList).zipIdx 1 :=
        List.mem_zipIdx_iff_le_and_getElem?_sub.mpr ⟨Nat.le_add_left 1 index, there⟩
      exact ⟨(line, index + 1), ⟨⟨member, rfl⟩, visible⟩, rfl⟩
  · rintro ⟨⟨line, place⟩, ⟨⟨member, rfl⟩, visible⟩, rfl⟩
    obtain ⟨positive, there⟩ := List.mem_zipIdx_iff_le_and_getElem?_sub.mp member
    obtain ⟨index, rfl⟩ := Nat.exists_eq_add_of_le' positive
    exact .line (linesOf_iff.mpr rfl) there visible

/-- The passages of a text in their order. -/
def passages (byLines : Bool) (path text : String) : List Passage :=
  if byLines then linePassages path 1 (textLines text.toList) else [⟨path, text⟩]

theorem lists_passages (byLines : Bool) (path text : String) :
    Lists (· < ·) (PassageOf path text byLines) (passages byLines path text) := by
  cases byLines with
  | false =>
    refine Lists.single 0 fun place passage => ⟨?_, ?_⟩
    · rintro ⟨⟩
      exact ⟨rfl, rfl⟩
    · rintro ⟨rfl, rfl⟩
      exact .whole
  | true =>
    have numbered := (Lists.numbered (textLines text.toList) 1).filter fun entry => !entry.1.all isWhite
    exact (numbered.map (linePassage path)).congr fun place passage => passageOf_lines_iff.symm

theorem parseText_eq_eachDocument (options : InputOptions) (path text : String) : parseText options path text =
    eachDocument (readPassage options.lines) (passages options.lines path text) := by
  rw [parseText, passages]
  cases options.lines with
  | true => exact parseLines_eq_eachDocument path 1 (textLines text.toList)
  | false =>
    simp only [Bool.false_eq_true, if_false, eachDocument, readPassage]
    cases Json.read text <;> rfl

end Text

/-- A document as it stands in a source, with its place in the source. -/
def Parsed (options : InputOptions) (source : Source) (place : Nat) (document : Document) : Prop :=
  ∃ text passage, source.content = .ok text ∧ PassageOf source.path text options.lines place passage ∧
    document.label = passage.label ∧ Json.read passage.content = .ok document.value

/-- The passages of a text are read one after another. -/
theorem parseText_settles (options : InputOptions) {source : Source} {text : String}
    (readable : source.content = .ok text) :
    Settles (fun e => ∃ place passage failure, PassageOf source.path text options.lines place passage ∧
        Json.read passage.content = .error failure ∧ e = unparsed options.lines passage.label failure)
      (· < ·) (Parsed options source) (parseText options source.path text) := by
  have settles := Settles.each (lists_passages options.lines source.path text) fun _ passage _ =>
    readPassage_settles options.lines passage
  rw [← parseText_eq_eachDocument] at settles
  have inOrder {i j : Nat × Unit} (ordered : Prod.Lex (· < ·) (fun _ _ => False) i j) : i.1 < j.1 := by
    cases ordered with
    | left _ _ less => exact less
    | right _ never => exact never.elim
  refine (settles.rename Prod.fst inOrder fun place document => Iff.rfl).congr (fun e => ?_) fun place document => ?_
  · constructor
    · rintro ⟨place, passage, there, failure, failed, rfl⟩
      exact ⟨place, passage, failure, there, failed, rfl⟩
    · rintro ⟨place, passage, failure, there, failed, rfl⟩
      exact ⟨place, passage, there, failure, failed, rfl⟩
  · constructor
    · rintro ⟨⟨_, _⟩, rfl, passage, there, label, read⟩
      exact ⟨text, passage, readable, there, label, read⟩
    · rintro ⟨text', passage, readable', there, label, read⟩
      obtain rfl := Except.ok.inj (readable.symm.trans readable')
      exact ⟨(place, ()), rfl, passage, there, label, read⟩

section Program

variable {p : FilterProgram} {output : Option String} {document : Json}

theorem document_eq_ok_iff : p.document output = .ok document ↔
    ∃ text, output = some text ∧ Json.read text = .ok document := by
  cases output with
  | none => simp [FilterProgram.document]
  | some text =>
    simp only [FilterProgram.document, Option.some.injEq, exists_eq_left']
    cases Json.read text <;> simp [Except.mapError]

/-- The outputs of a filter are read one by one. -/
theorem mapM_document_eq_ok_iff {outputs : List (Option String)} {documents : List Json} :
    outputs.mapM p.document = .ok documents ↔
      List.Forall₂ (fun output document => p.document output = .ok document) outputs documents := by
  induction outputs generalizing documents with
  | nil => cases documents <;> simp [pure, Except.pure]
  | cons output rest ih =>
    rw [List.mapM_cons]
    cases made : p.document output with
    | error e => cases documents <;> simp [bind, Except.bind, made]
    | ok document =>
      cases others : rest.mapM p.document with
      | error e => cases documents <;> simp [bind, Except.bind, made, ← ih, others]
      | ok values => cases documents <;> simp [bind, Except.bind, pure, Except.pure, made, ← ih, others]

/-- What a filter puts out for an input becomes one document for each output, in their order, unless an output failed
or is no document. -/
theorem run_eq_ok_iff (p : FilterProgram) (input : Json) (documents : List Json) : p.run input = .ok documents ↔
    List.Forall₂ (fun output document => ∃ text, output = some text ∧ Json.read text = .ok document) (p.outputs input)
      documents := by
  simp only [FilterProgram.run, mapM_document_eq_ok_iff, document_eq_ok_iff]

end Program

/-- The part of a document that is taken: all of it, or what a pointer leads to. -/
def partAt? (pointer : Option String) (value : Json) : Option Json :=
  match pointer with
  | none => some value
  | some pointer => value.pointer? pointer

section Document

variable (pointer : Option String) (document : Document)

/-- The documents that are made of a document, each with its place: the part that is taken, or each output of the filter
for it, numbered from zero. -/
inductive Becomes : Option DocumentFilter → (place : Nat) → Document → Prop
  | kept {part : Json} (taken : partAt? pointer document.value = some part) : Becomes none 0 ⟨document.label, part⟩
  | output {run : DocumentFilter} {part value : Json} {values : List Json} {place : Nat}
      (taken : partAt? pointer document.value = some part) (ran : run part = .ok values)
      (there : values[place]? = some value) : Becomes (some run) place ⟨document.label ++ "#" ++ toString place, value⟩

/-- Why nothing is made of a document: the pointer leads nowhere, or the filter fails on what it leads to. -/
inductive Refused : Option DocumentFilter → CommandError → Prop
  | pointer {filter : Option DocumentFilter} {path : String} (given : pointer = some path)
      (nowhere : document.value.pointer? path = none) : Refused filter (.nothingAt path document.label)
  | filter {run : DocumentFilter} {part : Json} {e : FilterError}
      (taken : partAt? pointer document.value = some part) (failed : run part = .error e) :
      Refused (some run) (.filterFailed document.label e)

variable {pointer document}

theorem select_eq_ok_iff {chosen : Document} : select pointer document = .ok chosen ↔
    ∃ part, partAt? pointer document.value = some part ∧ chosen = ⟨document.label, part⟩ := by
  cases pointer with
  | none =>
    simp only [select, partAt?, Except.ok.injEq, Option.some.injEq, exists_eq_left']
    exact eq_comm
  | some path =>
    simp only [select, partAt?]
    cases document.value.pointer? path <;> simp [eq_comm]

theorem select_eq_error {e : CommandError} (failed : select pointer document = .error e) :
    ∃ path, pointer = some path ∧ document.value.pointer? path = none ∧ e = .nothingAt path document.label := by
  cases pointer with
  | none => cases failed
  | some path =>
    simp only [select] at failed
    cases led : document.value.pointer? path with
    | some value => simp [led] at failed
    | none =>
      rw [led] at failed
      cases failed
      exact ⟨path, rfl, led, rfl⟩

theorem refused_iff_of_taken {part : Json} (taken : partAt? pointer document.value = some part)
    {filter : Option DocumentFilter} {e : CommandError} : Refused pointer document filter e ↔
      ∃ run cause, filter = some run ∧ run part = .error cause ∧ e = .filterFailed document.label cause := by
  constructor
  · rintro (⟨rfl, nowhere⟩ | ⟨taken', failed⟩)
    · rw [partAt?, nowhere] at taken
      cases taken
    · obtain rfl := Option.some.inj (taken.symm.trans taken')
      exact ⟨_, _, rfl, failed, rfl⟩
  · rintro ⟨run, cause, rfl, failed, rfl⟩
    exact .filter taken failed

/-- A filter turns a part into its results in their order, or is refused for the part. -/
theorem applyFilter_settles (filter : Option DocumentFilter) {part : Json}
    (taken : partAt? pointer document.value = some part) : Settles (Refused pointer document filter) (· < ·)
      (Becomes pointer document filter) (applyFilter filter ⟨document.label, part⟩) := by
  cases filter with
  | none =>
    refine .listed (fun e refused => ?_) (Lists.single 0 fun place result => ⟨?_, ?_⟩)
    · obtain ⟨_, _, given, _⟩ := (refused_iff_of_taken taken).mp refused
      cases given
    · rintro ⟨taken'⟩
      obtain rfl := Option.some.inj (taken.symm.trans taken')
      exact ⟨rfl, rfl⟩
    · rintro ⟨rfl, rfl⟩
      exact .kept taken
  | some run =>
    simp only [applyFilter]
    cases ran : run part with
    | error cause => exact .failed (.filter taken ran)
    | ok values =>
      refine .listed (fun e refused => ?_) (((Lists.numbered values 0).map _).congr fun place result => ⟨?_, ?_⟩)
      · obtain ⟨_, _, given, failed, _⟩ := (refused_iff_of_taken taken).mp refused
        cases given
        rw [ran] at failed
        cases failed
      · rintro ⟨⟨value, place⟩, ⟨member, rfl⟩, rfl⟩
        exact .output taken ran (List.mem_zipIdx_iff_getElem?.mp member)
      · intro becomes
        cases becomes with
        | output taken' ran' there =>
          obtain rfl := Option.some.inj (taken.symm.trans taken')
          obtain rfl := Except.ok.inj (ran.symm.trans ran')
          exact ⟨(_, place), ⟨List.mem_zipIdx_iff_getElem?.mpr there, rfl⟩, rfl⟩

/-- A document is made into what the pointer and the filter make of it. -/
theorem select_then_filter_settles (pointer : Option String) (filter : Option DocumentFilter)
    (document : Document) :
    Settles (Refused pointer document filter) (· < ·) (Becomes pointer document filter)
      (select pointer document >>= applyFilter filter) := by
  cases selected : select pointer document with
  | error e =>
    obtain ⟨path, given, nowhere, rfl⟩ := select_eq_error selected
    exact .failed (.pointer given nowhere)
  | ok chosen =>
    obtain ⟨part, taken, rfl⟩ := select_eq_ok_iff.mp selected
    exact applyFilter_settles filter taken

end Document

section Sources

variable (options : InputOptions) (filter : Option DocumentFilter)

/-- Why a source is not loaded: it cannot be read, one of its passages is no document, or one of its documents is
refused. -/
inductive Spoils (source : Source) : CommandError → Prop
  | unreadable {fault : FileFault} (closed : source.content = .error fault) :
      Spoils source (.unreadable source.path fault)
  | unparsed {text : String} {place : Nat} {passage : Passage} {failure : SyntaxFailure}
      (readable : source.content = .ok text) (there : PassageOf source.path text options.lines place passage)
      (failed : Json.read passage.content = .error failure) :
      Spoils source (unparsed options.lines passage.label failure)
  | refused {place : Nat} {document : Document} {e : CommandError} (parsed : Parsed options source place document)
      (refused : Refused options.pointer document filter e) : Spoils source e

/-- The documents of a source. -/
def loadSource (source : Source) : Except CommandError (List Document) := do
  let text ← source.text
  let documents ← parseText options source.path text
  eachDocument (fun document => select options.pointer document >>= applyFilter filter) documents

/-- The documents of a source come by their passage and by the result of the filter in it, unless
something spoils the source. -/
theorem loadSource_settles (source : Source) : Settles (Spoils options filter source)
    (Prod.Lex (· < ·) (· < ·))
    (fun place document => ∃ parsed, Parsed options source place.1 parsed ∧
      Becomes options.pointer parsed filter place.2 document)
    (loadSource options filter source) := by
  rw [loadSource, Source.text]
  cases readable : source.content with
  | error fault => exact .failed (.unreadable readable)
  | ok text =>
    -- First the passages settle, then the filter over the documents that they hold.
    have parses := parseText_settles options readable
    show Settles _ _ _ (parseText options source.path text >>= _)
    generalize parseText options source.path text = result at parses
    cases parses with
    | failed cause =>
      obtain ⟨place, passage, failure, there, failed, rfl⟩ := cause
      exact .failed (.unparsed readable there failed)
    | @listed documents sound lists =>
      have made := Settles.each lists fun _ document _ =>
        select_then_filter_settles options.pointer filter document
      show Settles _ _ _ (eachDocument _ documents)
      generalize eachDocument (fun document => select options.pointer document >>= applyFilter filter) documents =
        result at made
      cases made with
      | failed cause =>
        obtain ⟨place, document, parsed, refused⟩ := cause
        exact .failed (.refused parsed refused)
      | listed fine all =>
        refine .listed (fun e spoils => ?_) all
        cases spoils with
        | unreadable closed =>
          rw [readable] at closed
          cases closed
        | unparsed readable' there failed =>
          obtain rfl := Except.ok.inj (readable.symm.trans readable')
          exact sound _ ⟨_, _, _, there, failed, rfl⟩
        | refused parsed refused => exact fine e ⟨_, _, parsed, refused⟩

/-- The documents that come from some sources, each with its place: the place of its source, that of its passage in the
source, and its own among what is made of the document that stands there. -/
def Comes (sources : List Source) (place : Nat × Nat × Nat) (document : Document) : Prop :=
  ∃ source parsed, sources[place.1]? = some source ∧ Parsed options source place.2.1 parsed ∧
    Becomes options.pointer parsed filter place.2.2 document

/-- The documents of sources are loaded all and in their order, unless one of the sources is not loaded. -/
theorem loadDocuments_settles (sources : List Source) :
    Settles (fun e => ∃ source ∈ sources, Spoils options filter source e)
      (Prod.Lex (· < ·) (Prod.Lex (· < ·) (· < ·))) (Comes options filter sources)
      (loadDocuments options filter sources) := by
  have lists := (Lists.numbered sources 0).map Prod.fst
  rw [List.zipIdx_map_fst] at lists
  refine (Settles.each lists fun _ source _ => loadSource_settles options filter source).congr (fun e => ?_)
    fun place document => ?_
  · constructor
    · rintro ⟨place, source, ⟨entry, ⟨member, _⟩, rfl⟩, spoils⟩
      exact ⟨entry.1, List.fst_mem_of_mem_zipIdx member, spoils⟩
    · rintro ⟨source, member, spoils⟩
      obtain ⟨place, there⟩ := List.mem_iff_getElem?.mp member
      exact ⟨place, source, ⟨(source, place), ⟨List.mem_zipIdx_iff_getElem?.mpr there, rfl⟩, rfl⟩, spoils⟩
  · constructor
    · rintro ⟨source, ⟨⟨_, _⟩, ⟨member, rfl⟩, rfl⟩, parsed, there, becomes⟩
      exact ⟨_, parsed, List.mem_zipIdx_iff_getElem?.mp member, there, becomes⟩
    · rintro ⟨source, parsed, member, there, becomes⟩
      exact ⟨source, ⟨(source, place.1), ⟨List.mem_zipIdx_iff_getElem?.mpr member, rfl⟩, rfl⟩, parsed, there, becomes⟩

end Sources

end Conform.CommandLine
