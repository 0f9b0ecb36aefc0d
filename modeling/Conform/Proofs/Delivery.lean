import Conform.CommandLine.Run
import Conform.Proofs.Book
import Conform.Proofs.Loading

namespace Conform

theorem Decoder.exists_encode_of_decode {ω : Type} {decoder : Decoder ω} {target : Target} {input : Json}
    {d : Decoded ω} (decodes : decoder.decode target input = .ok (.ok d)) :
    ∃ encoded, decoder.encode target d = .ok encoded := by
  obtain ⟨shape, resolved, _⟩ := Decoder.decode_eq_ok_iff.mp decodes
  rw [encode, resolve, resolved]
  exact ⟨shape.encode d, rfl⟩

namespace CommandLine

/-- The type that a command decodes as. -/
def DecodeOptions.target (options : DecodeOptions) : Target :=
  if options.array then .arrayOf (.named options.typeName) else .named options.typeName

/-- What a command has at hand before it looks into its inputs. -/
structure Prepared (language : FilterLanguage) (storage : Storage) (options : DecodeOptions) (registry : Registry Empty)
    (filter : Option DocumentFilter) (inputs : List Source) : Prop where
  registered : loadRegistry storage options.schemas = .ok registry
  compiled : options.input.filter.mapM language = .ok filter
  found : sources storage options.input.patterns = .ok inputs

namespace Verdict

def encoded? : Verdict → Option Json
  | accepted encoded => some encoded
  | rejected _ => none

def isRejected : Verdict → Bool
  | accepted _ => false
  | rejected _ => true

end Verdict

section Judge

variable {decoder : Decoder Empty} {target : Target} {document : Document} {documents : List Document}
  {verdict : Verdict} {verdicts : List Verdict}

/-- A verdict is right where it holds what a document is decoded to, encoded again, or why it is rejected. -/
inductive Judged (decoder : Decoder Empty) (target : Target) (document : Document) : Verdict → Prop
  | accepted {decoded : Decoded Empty} {encoded : Json}
      (decodes : decoder.decode target document.value = .ok (.ok decoded))
      (encodes : decoder.encode target decoded = .ok encoded) : Judged decoder target document (.accepted encoded)
  | rejected {lines : List String} (decodes : decoder.decode target document.value = .ok (.error lines)) :
      Judged decoder target document (.rejected lines)

theorem Judged.isRejected_iff (judged : Judged decoder target document verdict) : verdict.isRejected = true ↔
    ∃ lines, decoder.decode target document.value = .ok (.error lines) := by
  cases judged with
  | accepted decodes encodes => simp [Verdict.isRejected, decodes]
  | rejected decodes => simp [Verdict.isRejected, decodes]

theorem exists_judge {result : Except (List String) (Decoded Empty)}
    (decodes : decoder.decode target document.value = .ok result) :
    ∃ verdict, judge decoder target document = .ok verdict ∧ Judged decoder target document verdict := by
  cases result with
  | error lines => exact ⟨.rejected lines, by rw [judge, decodes], .rejected decodes⟩
  | ok decoded =>
    obtain ⟨encoded, encodes⟩ := Decoder.exists_encode_of_decode decodes
    refine ⟨.accepted encoded, ?_, .accepted decodes encodes⟩
    simp only [judge, decodes, encodes]
    rfl

/-- Where every document is decoded or rejected, each gets its own verdict. -/
theorem exists_judgeAll (decodes : ∀ document ∈ documents, ∀ e, decoder.decode target document.value ≠ .error e) :
    ∃ verdicts, List.Forall₂ (Judged decoder target) documents verdicts ∧
      judgeAll decoder target documents = .ok (documents.zip verdicts) := by
  induction documents with
  | nil => exact ⟨[], .nil, rfl⟩
  | cons document rest ih =>
    obtain ⟨here, later⟩ := List.forall_mem_cons.mp decodes
    obtain ⟨verdicts, judgedRest, doneRest⟩ := ih later
    cases outcome : decoder.decode target document.value with
    | error e => exact absurd outcome (here e)
    | ok result =>
      obtain ⟨verdict, done, judged⟩ := exists_judge outcome
      exact ⟨verdict :: verdicts, .cons judged judgedRest, by rw [judgeAll, done, doneRest]; rfl⟩

/-- A verdict rejects exactly when the decoder rejects its document. -/
theorem exists_rejected_iff (judged : List.Forall₂ (Judged decoder target) documents verdicts) :
    (∃ verdict ∈ verdicts, verdict.isRejected = true) ↔
      ∃ document ∈ documents, ∃ lines, decoder.decode target document.value = .ok (.error lines) := by
  induction judged with
  | nil => simp
  | cons here _ ih => simp only [List.exists_mem_cons_iff, here.isRejected_iff, ih]

/-- Whether a document is rejected, where that can be told. -/
def rejects? (decoder : Decoder Empty) (target : Target) (document : Document) : Option Bool :=
  (decoder.decode target document.value).toOption.map fun result => !result.isOk

theorem Judged.rejects?_eq (judged : Judged decoder target document verdict) :
    rejects? decoder target document = some verdict.isRejected := by
  cases judged with
  | accepted decodes encodes => rw [rejects?, decodes]; rfl
  | rejected decodes => rw [rejects?, decodes]; rfl

theorem map_rejects? (judged : List.Forall₂ (Judged decoder target) documents verdicts) :
    documents.map (rejects? decoder target) = (verdicts.map Verdict.isRejected).map some := by
  induction judged with
  | nil => rfl
  | cons here _ ih => rw [List.map_cons, List.map_cons, List.map_cons, here.rejects?_eq, ih]

/-- Where it is told of every document whether it is rejected, each of them decodes. -/
theorem decode_ne_error_of_told {outcomes : List Bool}
    (told : documents.map (rejects? decoder target) = outcomes.map some) :
    ∀ document ∈ documents, ∀ e, decoder.decode target document.value ≠ .error e := by
  intro document member e failed
  have untold : rejects? decoder target document ∈ outcomes.map some := told ▸ List.mem_map_of_mem member
  rw [rejects?, failed] at untold
  obtain ⟨_, _, isNone⟩ := List.mem_map.mp untold
  cases isNone

theorem exists_decoded_of_told (told : rejects? decoder target document = some false) :
    ∃ decoded, decoder.decode target document.value = .ok (.ok decoded) := by
  rw [rejects?] at told
  match outcome : decoder.decode target document.value, told with
  | .ok (.ok decoded), _ => exact ⟨decoded, rfl⟩

/-- What is delivered are the encodings of the accepted documents, in their order. -/
theorem acceptedValues_zip (length : documents.length = verdicts.length) :
    acceptedValues (documents.zip verdicts) = verdicts.filterMap Verdict.encoded? := by
  have values : acceptedValues (documents.zip verdicts) =
      ((documents.zip verdicts).map Prod.snd).filterMap Verdict.encoded? := by
    rw [List.filterMap_map, acceptedValues]
    refine List.filterMap_congr fun entry _ => ?_
    obtain ⟨document, verdict⟩ := entry
    cases verdict <;> rfl
  rw [values, List.map_snd_zip length.ge]

theorem rejectedCount_zip (length : documents.length = verdicts.length) :
    rejectedCount (documents.zip verdicts) = verdicts.countP Verdict.isRejected := by
  have count : rejectedCount (documents.zip verdicts) =
      ((documents.zip verdicts).map Prod.snd).countP Verdict.isRejected := by
    rw [List.countP_map, rejectedCount]
    refine List.countP_congr fun entry _ => ?_
    obtain ⟨document, verdict⟩ := entry
    cases verdict <;> exact Iff.rfl
  rw [count, List.map_snd_zip length.ge]

end Judge

/-- Why a text cannot be put where it is to go. -/
inductive Unwritable (storage : Storage) : (out : Option String) → CommandError → Prop
  | folder {path : String} {fault : FileFault} (failed : storage.write path = .error (.folder fault)) :
      Unwritable storage (some path) (.noFolder fault)
  | file {path : String} {fault : FileFault} (failed : storage.write path = .error (.file fault)) :
      Unwritable storage (some path) (.unwritable path fault)

/-- A text can be put where it is to go, as it always can where it is printed. -/
def Writable (storage : Storage) (out : Option String) : Prop := ∀ e, ¬Unwritable storage out e

/-- A text is put where it is to go: it is printed on a line of its own or written into a file. -/
inductive Delivers (storage : Storage) (text : String) : (out : Option String) → Outcome → Prop
  | printed {outcome : Outcome} (out : outcome.out = text ++ "\n") (written : outcome.written = none) :
      Delivers storage text none outcome
  | filed {outcome : Outcome} {path : String} {place : Option String} (allowed : storage.write path = .ok place)
      (out : outcome.out = "") (written : outcome.written = place.map fun place => (place, text)) :
      Delivers storage text (some path) outcome

section Deliver

variable {storage : Storage} {out : Option String} {target : Target} {verdicts : List (Document × Verdict)}
  {e : CommandError}

theorem deliver_of_unwritable (unwritable : Unwritable storage out e) (text log : String) :
    deliver storage out text log = ⟨"", log, none, some e⟩ := by
  cases unwritable with
  | folder failed => rw [deliver, failed]
  | file failed => rw [deliver, failed]

theorem deliver_of_writable (writable : Writable storage out) (text log : String) :
    (deliver storage out text log).log = log ∧ (deliver storage out text log).failure = none ∧
      Delivers storage text out (deliver storage out text log) := by
  cases out with
  | none => exact ⟨rfl, rfl, .printed rfl rfl⟩
  | some path =>
    cases written : storage.write path with
    | ok place =>
      rw [deliver, written]
      exact ⟨rfl, rfl, .filed written rfl rfl⟩
    | error fault => cases fault with
      | folder fault => exact absurd (.folder written) (writable _)
      | file fault => exact absurd (.file written) (writable _)

/-- A summary that cannot be written fails for that reason, whatever the verdicts. -/
theorem summarize_of_unwritable (unwritable : Unwritable storage out e) :
    summarize storage out target verdicts = ⟨"", joinLines (verdicts.flatMap logLines), none, some e⟩ := by
  rw [summarize, deliver_of_unwritable unwritable, if_pos (.inl rfl)]

/-- A summary that can be written delivers the accepted values and fails exactly when a document was
rejected. -/
theorem summarize_of_writable (target : Target) (verdicts : List (Document × Verdict))
    (writable : Writable storage out) :
    (summarize storage out target verdicts).log = joinLines (verdicts.flatMap logLines) ∧
      Delivers storage (Json.pretty 0 (.arr (acceptedValues verdicts))) out (summarize storage out target verdicts) ∧
      (summarize storage out target verdicts).failure = if rejectedCount verdicts = 0 then none
        else some (.rejected (rejectedCount verdicts) verdicts.length target) := by
  obtain ⟨log, failure, delivers⟩ := deliver_of_writable writable (Json.pretty 0 (.arr (acceptedValues verdicts)))
    (joinLines (verdicts.flatMap logLines))
  rw [summarize]
  by_cases none : rejectedCount verdicts = 0
  · rw [if_pos (.inr none), if_pos none]
    exact ⟨log, delivers, failure⟩
  · rw [if_neg (by simp [failure, none]), if_neg none]
    refine ⟨log, ?_, rfl⟩
    cases delivers with
    | printed out written => exact .printed out written
    | filed allowed out written => exact .filed allowed out written

/-- Whether or not the output can be written, the log tells of every document. -/
theorem log_summarize : (summarize storage out target verdicts).log = joinLines (verdicts.flatMap logLines) := by
  by_cases writable : Writable storage out
  · exact (summarize_of_writable target verdicts writable).1
  · obtain ⟨e, unwritable⟩ := not_forall_not.mp writable
    rw [summarize_of_unwritable unwritable]

end Deliver

/-- How a run tells of documents by its verdicts on them. The log tells of all of them. The encodings of the accepted
ones go where they are to go, and the run fails exactly where one is rejected. Where the output cannot be written, it
is lost and the run fails. -/
structure Accounts (decoder : Decoder Empty) (storage : Storage) (options : DecodeOptions) (documents : List Document)
    (verdicts : List Verdict) (outcome : Outcome) : Prop where
  log : outcome.log = joinLines ((documents.zip verdicts).flatMap logLines)
  delivers : Writable storage options.out →
    Delivers storage (Json.pretty 0 (.arr (verdicts.filterMap Verdict.encoded?))) options.out outcome
  fails_iff : Writable storage options.out → ((∃ e, outcome.failure = some e) ↔
    ∃ document ∈ documents, ∃ lines, decoder.decode options.target document.value = .ok (.error lines))
  counts : Writable storage options.out → ∀ e, outcome.failure = some e →
    e = .rejected (verdicts.countP Verdict.isRejected) documents.length options.target
  lost : ∀ e, Unwritable storage options.out e →
    outcome.out = "" ∧ outcome.written = none ∧ outcome.failure = some e

/-- The summary accounts for every verdict, in the log, in what it delivers and in how it ends. -/
theorem accounts_summarize {decoder : Decoder Empty} {storage : Storage} {options : DecodeOptions}
    {documents : List Document} {verdicts : List Verdict}
    (judged : List.Forall₂ (Judged decoder options.target) documents verdicts) :
    Accounts decoder storage options documents verdicts
      (summarize storage options.out options.target (documents.zip verdicts)) := by
  have length := judged.length_eq
  have total : (documents.zip verdicts).length = documents.length := by
    rw [List.length_zip, length, Nat.min_self]
  have reported (writable : Writable storage options.out) :=
    summarize_of_writable options.target (documents.zip verdicts) writable
  rw [acceptedValues_zip length, rejectedCount_zip length, total] at reported
  refine ⟨log_summarize, fun writable => (reported writable).2.1, fun writable => ?_, fun writable e failed => ?_,
    fun e unwritable => ?_⟩
  · rw [(reported writable).2.2, ← exists_rejected_iff judged, ← List.countP_pos_iff, Nat.pos_iff_ne_zero]
    by_cases none : verdicts.countP Verdict.isRejected = 0 <;> simp [none]
  · rw [(reported writable).2.2] at failed
    split at failed
    · cases failed
    · exact (Option.some.inj failed).symm
  · rw [summarize_of_unwritable unwritable]
    exact ⟨rfl, rfl, rfl⟩

section Prepared

variable {language : FilterLanguage} {storage : Storage} {options : DecodeOptions} {registry : Registry Empty}
  {filter : Option DocumentFilter} {inputs : List Source} {documents : List Document}

/-- A prepared run loads the documents, judges them and sums up. -/
theorem Prepared.runDecode_eq (prepared : Prepared language storage options registry filter inputs) :
    runDecode language storage options = .ofExcept do
      let documents ← loadDocuments options.input filter inputs
      let verdicts ← judgeAll ⟨registry⟩ options.target documents
      return summarize storage options.out options.target verdicts := by
  rw [runDecode, prepared.registered, prepared.compiled, prepared.found]
  rfl

/-- A run that cannot load its documents fails with the cause. -/
theorem Prepared.failed (prepared : Prepared language storage options registry filter inputs) {e : CommandError}
    (failed : loadDocuments options.input filter inputs = .error e) : runDecode language storage options = .failed e := by
  rw [prepared.runDecode_eq, failed]
  rfl

/-- Where every loaded document is decoded or rejected, a run judges each of them and tells of its verdicts. -/
theorem Prepared.accounts (prepared : Prepared language storage options registry filter inputs)
    (loaded : loadDocuments options.input filter inputs = .ok documents)
    (decodes : ∀ document ∈ documents, ∀ e, (Decoder.mk registry).decode options.target document.value ≠ .error e) :
    ∃ verdicts, List.Forall₂ (Judged ⟨registry⟩ options.target) documents verdicts ∧
      Accounts ⟨registry⟩ storage options documents verdicts (runDecode language storage options) := by
  obtain ⟨verdicts, judged, done⟩ := exists_judgeAll decodes
  refine ⟨verdicts, judged, ?_⟩
  rw [prepared.runDecode_eq, loaded]
  show Accounts _ _ _ _ _ (Outcome.ofExcept (judgeAll _ _ documents >>= _))
  rw [done]
  exact accounts_summarize judged

end Prepared

/-- No document gets lost, comes twice or changes its place, on the way in and on the way out. -/
theorem documents_accounted_for :
    (∀ (p : FilterProgram) (input : Json) (values : List Json), p.run input = .ok values ↔
      List.Forall₂ (fun output value => ∃ text, output = some text ∧ Json.read text = .ok value) (p.outputs input)
        values) ∧
    (∀ (options : InputOptions) (filter : Option DocumentFilter) (sources : List Source),
      Settles (fun e => ∃ source ∈ sources, Spoils options filter source e)
        (Prod.Lex (· < ·) (Prod.Lex (· < ·) (· < ·))) (Comes options filter sources)
        (loadDocuments options filter sources)) ∧
    ∀ {language : FilterLanguage} {storage : Storage} {options : DecodeOptions} {registry : Registry Empty}
      {filter : Option DocumentFilter} {inputs : List Source},
      Prepared language storage options registry filter inputs →
      (∀ e, loadDocuments options.input filter inputs = .error e → runDecode language storage options = .failed e) ∧
      ∀ documents, loadDocuments options.input filter inputs = .ok documents →
        (∀ document ∈ documents, ∀ e, (Decoder.mk registry).decode options.target document.value ≠ .error e) →
        ∃ verdicts, List.Forall₂ (Judged ⟨registry⟩ options.target) documents verdicts ∧
          Accounts ⟨registry⟩ storage options documents verdicts (runDecode language storage options) :=
  ⟨run_eq_ok_iff, loadDocuments_settles, fun prepared => ⟨fun _ => prepared.failed, fun _ => prepared.accounts⟩⟩

def stayFiles : Storage := .ofFiles
  [("s.json", "[\x7b\"name\":\"Stay\",\"props\":[\x7b\"name\":\"nights\",\"type\":\"number\"\x7d]\x7d]"),
    ("stay.json", "\x7b\"nights\":1\x7d"),
    ("all.ndjson", "\x7b\"a\":[\x7b\"nights\":1\x7d,\x7b\"nights\":\"x\"\x7d]\x7d\n \n\x7b\"a\":[]\x7d\r\n" ++
      "\x7b\"a\":[\x7b\"nights\":2\x7d]\x7d")]

def staySource (path : String) : Source := ⟨path, stayFiles.read path⟩

/-- Each line that is not blank holds a list of stays. -/
def stayOptions : DecodeOptions :=
  { schemas := ⟨["s.json"], true⟩
    input := ⟨true, some "/a", some ".[]", ["all.ndjson"]⟩
    typeName := "Stay"
    array := false
    out := none }

/-- The output is to lie in a folder whose name a file has. -/
def blockedOptions : DecodeOptions :=
  { stayOptions with
    input := ⟨false, none, none, ["stay.json"]⟩
    out := some "stay.json/out.json" }

def oneStay : Json := .obj [("nights", .num (.int 1))]

def stays : List Document :=
  [⟨"all.ndjson:1#0", oneStay⟩, ⟨"all.ndjson:1#1", .obj [("nights", .str "x")]⟩,
    ⟨"all.ndjson:4#0", .obj [("nights", .num (.int 2))]⟩]

theorem exists_of_any_toOption {ε α : Type} {result : Except ε α} {p : α → Bool}
    (found : result.toOption.any p = true) : ∃ a, result = .ok a ∧ p a = true := by
  cases result with
  | error e => cases found
  | ok a => exact ⟨a, rfl, found⟩

theorem exists_registry_stays : ∃ registry, loadRegistry stayFiles stayOptions.schemas = .ok registry ∧
    stays.map (rejects? ⟨registry⟩ (.named "Stay")) = [false, true, false].map some := by
  obtain ⟨registry, registered, told⟩ : ∃ registry, loadRegistry stayFiles stayOptions.schemas = .ok registry ∧
      decide (stays.map (rejects? ⟨registry⟩ (.named "Stay")) = [false, true, false].map some) = true :=
    exists_of_any_toOption (by decide +kernel)
  exact ⟨registry, registered, of_decide_eq_true told⟩

theorem exists_filter_stays : ∃ filter, stayOptions.input.filter.mapM Filter.interpreter.language = .ok (some filter) ∧
    loadDocuments stayOptions.input (some filter) [staySource "all.ndjson"] = .ok stays := by
  obtain ⟨filter, compiled, found⟩ : ∃ filter, Filter.interpreter.language ".[]" = .ok filter ∧
      (loadDocuments stayOptions.input (some filter) [staySource "all.ndjson"]).toOption.any
        (decide <| · = stays) = true :=
    exists_of_any_toOption (by decide +kernel)
  obtain ⟨documents, loaded, same⟩ := exists_of_any_toOption found
  refine ⟨filter, ?_, of_decide_eq_true same ▸ loaded⟩
  show some <$> Filter.interpreter.language ".[]" = _
  rw [compiled]
  rfl

def runStays (options : DecodeOptions) : Outcome := runDecode Filter.interpreter.language stayFiles options

/-- Of three stays the second one is rejected. -/
theorem documents_accounted_for_stays : ∃ registry filter inputs, ∃ verdicts : List Verdict,
    Prepared Filter.interpreter.language stayFiles stayOptions registry (some filter) inputs ∧
    loadDocuments stayOptions.input (some filter) inputs = .ok stays ∧
    (∀ document ∈ stays, ∀ e, (Decoder.mk registry).decode stayOptions.target document.value ≠ .error e) ∧
    Writable stayFiles stayOptions.out ∧
    verdicts.map Verdict.isRejected = [false, true, false] ∧
    Delivers stayFiles (Json.pretty 0 (.arr (verdicts.filterMap Verdict.encoded?))) none (runStays stayOptions) ∧
    (runStays stayOptions).failure = some (.rejected 1 3 (.named "Stay")) := by
  obtain ⟨registry, registered, told⟩ := exists_registry_stays
  obtain ⟨filter, compiled, loaded⟩ := exists_filter_stays
  have prepared : Prepared Filter.interpreter.language stayFiles stayOptions registry (some filter)
      [staySource "all.ndjson"] := ⟨registered, compiled, rfl⟩
  have decodes := decode_ne_error_of_told told
  have writable : Writable stayFiles stayOptions.out := nofun
  obtain ⟨verdicts, judged, accounts⟩ := (documents_accounted_for.2.2 prepared).2 stays loaded decodes
  have split : verdicts.map Verdict.isRejected = [false, true, false] :=
    List.map_injective_iff.mpr (fun _ _ => Option.some.inj) ((map_rejects? judged).symm.trans told)
  have rejected : ∃ verdict ∈ verdicts, verdict.isRejected = true := by
    rw [← List.mem_map, split]
    simp
  have count : verdicts.countP Verdict.isRejected = 1 := by
    rw [← Function.id_comp Verdict.isRejected, ← List.countP_map, split]
    rfl
  obtain ⟨e, failed⟩ := (accounts.fails_iff writable).mpr ((exists_rejected_iff judged).mp rejected)
  refine ⟨registry, filter, _, verdicts, prepared, loaded, decodes, writable, split, accounts.delivers writable, ?_⟩
  rw [runStays, failed, accounts.counts writable e failed, count]
  rfl

/-- Nothing was rejected, but a file is in the way of the output. -/
theorem failure_without_rejection : ∃ registry decoded,
    Prepared Filter.interpreter.language stayFiles blockedOptions registry none [staySource "stay.json"] ∧
    loadDocuments blockedOptions.input none [staySource "stay.json"] = .ok [⟨"stay.json", oneStay⟩] ∧
    (Decoder.mk registry).decode blockedOptions.target oneStay = .ok (.ok decoded) ∧
    (runStays blockedOptions).out = "" ∧ (runStays blockedOptions).written = none ∧
    (runStays blockedOptions).failure = some (.noFolder .exists) := by
  obtain ⟨registry, registered, told⟩ := exists_registry_stays
  have prepared : Prepared Filter.interpreter.language stayFiles blockedOptions registry none [staySource "stay.json"] :=
    ⟨registered, rfl, rfl⟩
  have found : (loadDocuments blockedOptions.input none [staySource "stay.json"]).toOption.any
      (decide <| · = [⟨"stay.json", oneStay⟩]) = true := by decide +kernel
  obtain ⟨documents, loaded, same⟩ := exists_of_any_toOption found
  obtain rfl := of_decide_eq_true same
  obtain ⟨decoded, decodes⟩ := exists_decoded_of_told (List.cons.inj told).1
  have accepted : (Decoder.mk registry).decode blockedOptions.target oneStay = .ok (.ok decoded) := decodes
  obtain ⟨verdicts, _, accounts⟩ := prepared.accounts loaded
    (List.forall_mem_singleton.mpr fun e failed => nomatch accepted.symm.trans failed)
  have blocked : Unwritable stayFiles blockedOptions.out (.noFolder .exists) := .folder (by decide +kernel)
  exact ⟨registry, decoded, prepared, loaded, accepted, accounts.lost _ blocked⟩

end CommandLine

end Conform
