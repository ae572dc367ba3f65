import PipeCompiler.Proofs.DefiniteErrors
import PipeCompiler.Proofs.OpenStrings
import PipeCompiler.Proofs.ParserCompletions
import PipeCompiler.Proofs.ParserStability
import PipeCompiler.Proofs.ParserProgress
import PipeCompiler.Proofs.TokenKinds

/-! Texts that more lines can mend.

A text that does not compile may be the beginning of one that does. Three things decide it: the
grammar goes wrong only where the text ends or behind a pipe, a string that is not closed is closed,
and every pipe has a target or can still get one. -/
namespace PipeCompiler

open Grammar (Alike Begun Greedy HasTarget form)
open Token.Relabelling (plain)

/-- More tokens make a program of some exactly if the grammar finds no definite error in them and
every pipe can still get a target. -/
theorem begun_iff {ts : Tokens} (hstop : ts.stop.kind = .eof)
    (hts : ∀ tok ∈ ts.ahead, tok.kind ≠ .eof) :
    Begun .statements ts.ahead ↔
      (∀ e rest, Parser.program ts = .error e rest → ¬e.Definite) ∧ PipesOpen ts.ahead := by
  constructor
  · rintro ⟨us, body, hus, hbody⟩
    constructor
    · -- A definite error stays one, but with `us` there is none.
      intro e rest hrun he
      obtain ⟨last, herror⟩ := Parser.program_error ⟨us, .shown .eof []⟩ hstop hrun he
      have hok : Parser.program ⟨ts.ahead ++ us, .shown .eof []⟩ = _ := hbody.program rfl
      rw [Tokens.before, hok] at herror
      cases herror
    · intro before tok after hsplit hk
      obtain ⟨text, htext⟩ := hus.exists_text
      have hpiped := hbody.piped trivial before tok (after ++ us) (by simp [hsplit]) hk
      exact ⟨text, us, htext, hpiped⟩
  · rintro ⟨hfits, hpipes⟩
    have hopen : Tokens.Open ts := ⟨hstop, hts, hpipes⟩
    cases hrun : Parser.program ts with
    | ok p rest => exact .whole (Parser.program_greedy hstop hts hrun).2
    | error e rest => exact Parser.program_mends hopen hrun (hfits e rest hrun)

/-- More lines make a program of the text. -/
def Continues (source : Bytes) : Prop :=
  ∃ rest r, compile (source ++ '\n'.toUInt8 :: rest) = .ok r

theorem compile_ok_iff {source : Bytes} :
    (∃ r, compile source = .ok r) ↔
      ∃ ts body, seen? source = some ts ∧ Greedy (.statements body) ts .eof := by
  constructor
  · rintro ⟨⟨p, code⟩, h⟩
    obtain ⟨ts, hts, hbody⟩ := greedy_of_parse (compile_eq_ok.mp h).1
    exact ⟨ts, _, hts, hbody⟩
  · rintro ⟨ts, body, hts, hbody⟩
    obtain ⟨p, hp, -⟩ := parse_of_seen hts hbody
    obtain ⟨toks, htoks, hparse⟩ := Program.parse_eq_ok.mp hp
    obtain ⟨rest, hrun⟩ := Tokens.parse_eq_ok.mp hparse
    obtain ⟨code, hcode⟩ := compile_of_program htoks hrun
    exact ⟨_, hcode⟩

/-- A text of which the tokens are known goes on to a program if its tokens do. -/
theorem continues_iff_begun {source : Bytes} {ts : List Token} (h : seen? source = some ts) :
    Continues source ↔ Begun .statements ts := by
  constructor
  · rintro ⟨rest, hr⟩
    obtain ⟨_, body, hall, hbody⟩ := compile_ok_iff.mp hr
    rw [seen?_moreLines h, Option.map_eq_some_iff] at hall
    obtain ⟨us, hus, rfl⟩ := hall
    exact ⟨us, body, spelled_of_seen hus, hbody⟩
  · rintro ⟨us, body, hus, hbody⟩
    obtain ⟨rest, hrest⟩ := hus.exists_text
    refine ⟨rest, compile_ok_iff.mpr ⟨ts ++ us, body, ?_, hbody⟩⟩
    rw [seen?_moreLines h, hrest, Option.map_some]

/-- A text that ends within a string goes on if it does once the string is closed: what stands in a
string does not matter to the grammar. -/
theorem continues_of_openString {source : Bytes} {pos : Position}
    (h : tokenize source = .error ⟨.unterminated, pos⟩) :
    Continues source ↔ ∃ quote ts, Lexeme.isQuote quote = true ∧
      seen? (source ++ ['\n'.toUInt8, quote]) = some ts ∧
        Continues (source ++ ['\n'.toUInt8, quote]) := by
  constructor
  · rintro ⟨rest, hr⟩
    obtain ⟨quote, ts, hq, ⟨value, hclosed⟩, hlonger⟩ := seen?_openString h
    obtain ⟨_, body, hall, hbody⟩ := compile_ok_iff.mp hr
    obtain ⟨value', v, vs, hvs, rfl⟩ := hlonger rest _ hall
    refine ⟨quote, _, hq, hclosed, (continues_iff_begun hclosed).mpr ?_⟩
    have halike : Alike (ts ++ .shown .string value :: vs) (ts ++ .shown .string value' :: vs) :=
      (Alike.refl ts).append (.cons rfl (.refl vs))
    obtain ⟨body', hbody'⟩ := hbody.alike halike
    exact ⟨vs, body', spelled_of_seen hvs, by simpa using hbody'⟩
  · rintro ⟨quote, ts, -, -, rest, r, hr⟩
    exact ⟨quote :: '\n'.toUInt8 :: rest, r, by simpa using hr⟩

namespace GrammarError

variable {e : GrammarError} {source : Bytes}

/-- Only the report on a pipe target begins like this. -/
theorem pipeTarget_of_message (h : Bytes.ofString "Pipe target must be " <+: e.message) :
    e.fault = .pipeTarget := by
  obtain ⟨rest, hrest⟩ := h
  have hfirst := e.head?_message
  rw [← hrest] at hfirst
  cases hf : e.fault with
  | pipeTarget => rfl
  | _ =>
    rw [hf] at hfirst
    cases hfirst

private theorem not_definite_iff :
    ¬e.Definite ↔ (e.diagnostic source).incomplete = true ∨
      Bytes.ofString "Pipe target must be " <+: (e.diagnostic source).message := by
  constructor
  · intro he
    by_contra hreport
    rw [not_or, Bool.not_eq_true] at hreport
    exact he (definite_of_diagnostic hreport.1 hreport.2)
  · rintro (hi | hp) ⟨hk, hf⟩
    · exact hk (by simpa [diagnostic] using hi)
    · exact hf (pipeTarget_of_message hp)

end GrammarError

/-- Nothing in a text with these tokens keeps more lines from making a program of it. If it does not
compile, it goes wrong at its end or behind a pipe, and every pipe can still get a target. -/
structure Mendable (source : Bytes) (ts : List Token) : Prop where
  late : ∀ d, compile source = .error (.diagnostic d) →
    d.incomplete = true ∨ Bytes.ofString "Pipe target must be " <+: d.message
  pipes : PipesOpen ts

/-- The report on a text whose tokens are known is one on the grammar. -/
theorem exists_grammarError {source : Bytes} {toks : List Token} {d : Diagnostic}
    (htoks : tokenize source = .ok toks) (h : compile source = .error (.diagnostic d)) :
    ∃ e rest, Parser.program (Tokens.ofList toks) = .error e rest ∧ e.diagnostic source = d := by
  rcases Program.parse_eq_error.mp (compile_eq_diagnostic.mp h) with
    ⟨e, herror, -⟩ | ⟨_, e, htoks', hparse, hd⟩
  · rw [htoks] at herror
    cases herror
  · rw [htoks] at htoks'
    cases htoks'
    obtain ⟨rest, hrun⟩ := Tokens.parse_eq_error.mp hparse
    exact ⟨e, rest, hrun, hd⟩

theorem continues_iff_mendable {source : Bytes} {ts : List Token} (h : seen? source = some ts) :
    Continues source ↔ Mendable source ts := by
  rw [continues_iff_begun h]
  obtain ⟨toks, htoks, rfl⟩ := seen?_eq_some.mp h
  have hplain := Parser.program_commutes plain (Tokens.ofList_stop toks)
  have hstop : ((Tokens.ofList toks).relabel plain).stop.kind = .eof := Tokens.ofList_stop toks
  have hkinds : ∀ tok ∈ ((Tokens.ofList toks).relabel plain).ahead, tok.kind ≠ .eof := by
    intro tok htok
    obtain ⟨tok', htok', rfl⟩ := List.mem_map.mp htok
    rw [plain.kind_map]
    exact Tokens.kind_ne_eof htok'
  refine (begun_iff hstop hkinds).trans ⟨fun ⟨hfits, hpipes⟩ => ⟨?_, hpipes⟩,
    fun ⟨hlate, hpipes⟩ => ⟨?_, hpipes⟩⟩
  · intro d hd
    obtain ⟨e, rest, hrun, rfl⟩ := exists_grammarError htoks hd
    rw [hrun] at hplain
    have hdefinite : ¬(e.relabel plain).Definite := hfits _ _ hplain
    exact GrammarError.not_definite_iff.mp hdefinite
  · intro e rest hrun
    rw [hplain] at hrun
    cases hp : Parser.program (Tokens.ofList toks) with
    | ok p rest' =>
      rw [hp] at hrun
      cases hrun
    | error e' rest' =>
      rw [hp] at hrun
      cases hrun
      have hdefinite : ¬e'.Definite :=
        GrammarError.not_definite_iff.mpr (hlate _ (compile_of_grammarError htoks hp))
      exact hdefinite

section

variable {source : Bytes} {d : Diagnostic} {ts : List Token}

private theorem continues_iff_late (h : compile source = .error (.diagnostic d))
    (hts : seen? source = some ts) :
    Continues source ↔
      (d.incomplete = true ∨ Bytes.ofString "Pipe target must be " <+: d.message) ∧
        PipesOpen ts := by
  rw [continues_iff_mendable hts]
  constructor
  · exact fun hmendable => ⟨hmendable.late d h, hmendable.pipes⟩
  · rintro ⟨hlate, hpipes⟩
    refine ⟨fun d' h' => ?_, hpipes⟩
    rw [h] at h'
    cases h'
    exact hlate

/-- Without a pipe there is no report on what it leads to. -/
theorem pipeTarget_not_reported (h : compile source = .error (.diagnostic d))
    (hts : seen? source = some ts) (hnone : ∀ tok ∈ ts, tok.kind ≠ .pipe) :
    ¬Bytes.ofString "Pipe target must be " <+: d.message := by
  intro hmessage
  obtain ⟨toks, htoks, rfl⟩ := seen?_eq_some.mp hts
  obtain ⟨e, rest, hrun, rfl⟩ := exists_grammarError htoks h
  obtain ⟨tok, htok, hk⟩ := Parser.program_pipeTarget (Tokens.ofList_stop toks) hrun
    (GrammarError.pipeTarget_of_message hmessage)
  exact hnone (plain tok) (List.mem_map_of_mem htok) hk

private theorem not_continues_of_unexpected {g : Glyph} {pos : Position}
    (h : tokenize source = .error ⟨.unexpected g, pos⟩) : ¬Continues source := by
  rintro ⟨rest, r, hr⟩
  have hlonger : tokenize (source ++ '\n'.toUInt8 :: rest) = _ :=
    Cursor.tokens_followedBy_unexpected h rest
  rw [compile_of_lexicalError hlonger] at hr
  cases hr

end

/-- What a report tells about the lines that may follow. Where the tokens are known, they can make a
program of the text exactly if it goes wrong at its end or behind a pipe, and every pipe can still
get a target; without any pipe, this is what the report says. Where they are not known, the text has
to end within a string, and to go on once the string is closed. -/
theorem continues_iff_reported {source : Bytes} {d : Diagnostic}
    (h : compile source = .error (.diagnostic d)) :
    (∀ ts, seen? source = some ts →
      (Continues source ↔
        (d.incomplete = true ∨ Bytes.ofString "Pipe target must be " <+: d.message) ∧
          PipesOpen ts) ∧
      ((∀ tok ∈ ts, tok.kind ≠ .pipe) → (d.incomplete = true ↔ Continues source))) ∧
    (seen? source = none →
      (Continues source ↔ d.incomplete = true ∧
        ∃ quote ts, Lexeme.isQuote quote = true ∧
          seen? (source ++ ['\n'.toUInt8, quote]) = some ts ∧
            Mendable (source ++ ['\n'.toUInt8, quote]) ts)) := by
  constructor
  · intro ts hts
    have hcontinues := continues_iff_late h hts
    refine ⟨hcontinues, fun hnone => ?_⟩
    have hpipes : PipesOpen ts := by
      intro before tok after hsplit hk
      exact absurd hk (hnone tok (by simp [hsplit]))
    have hmessage := pipeTarget_not_reported h hts hnone
    rw [hcontinues]
    exact ⟨fun hi => ⟨.inl hi, hpipes⟩, fun ⟨hlate, _⟩ => hlate.resolve_right hmessage⟩
  · intro hnone
    rcases Program.parse_eq_error.mp (compile_eq_diagnostic.mp h) with
      ⟨⟨fault, pos⟩, herror, rfl⟩ | ⟨toks, e, htoks, -, -⟩
    · cases fault with
      | unterminated =>
        rw [continues_of_openString herror]
        constructor
        · rintro ⟨quote, ts, hq, hts, hcontinues⟩
          exact ⟨rfl, quote, ts, hq, hts, (continues_iff_mendable hts).mp hcontinues⟩
        · rintro ⟨-, quote, ts, hq, hts, hmendable⟩
          exact ⟨quote, ts, hq, hts, (continues_iff_mendable hts).mpr hmendable⟩
      | unexpected g =>
        refine iff_of_false (not_continues_of_unexpected herror) ?_
        rintro ⟨hi, -⟩
        simp [LexicalError.diagnostic] at hi
    · simp [seen?, htoks, Except.toOption] at hnone

/-- A report that is evaluated from a text. -/
theorem compile_of_report {source : Bytes} {d : Diagnostic}
    (h : (match Program.parse source with
      | .error d' => d' == d
      | .ok _ => false) = true) : compile source = .error (.diagnostic d) := by
  rw [compile_eq_diagnostic]
  cases hparse : Program.parse source with
  | ok p => simp [hparse] at h
  | error d' =>
    rw [hparse] at h
    exact congrArg _ (eq_of_beq h)

/-- The text ends within a list, in a block. -/
def Grammar.openList : Bytes :=
  "fn f(x) \x7b return [x, 2"

def Grammar.openListReport : Diagnostic :=
  ⟨.grammatical, "Expected ']' but found end of input", openList, [], ⟨1, 23⟩, true⟩

theorem continues_iff_reported_openList :
    compile Grammar.openList = .error (.diagnostic Grammar.openListReport) ∧
      Continues Grammar.openList := by
  have h : compile Grammar.openList = .error (.diagnostic Grammar.openListReport) :=
    compile_of_report (by decide +kernel)
  cases hts : seen? Grammar.openList with
  | none =>
    have hsome : (seen? Grammar.openList).isSome = true := by decide +kernel
    simp [hts] at hsome
  | some ts =>
    have hpipes : (seen? Grammar.openList).all (fun ts => ts.all (·.kind ≠ .pipe)) = true := by
      decide +kernel
    have hnone : ∀ tok ∈ ts, tok.kind ≠ .pipe := by simpa [hts] using hpipes
    obtain ⟨-, hreport⟩ := (continues_iff_reported h).1 ts hts
    exact ⟨h, (hreport hnone).mp rfl⟩

/-- A report on the spelling that more text may mend is on a string. -/
theorem openString_of_report {source : Bytes} {d : Diagnostic}
    (h : compile source = .error (.diagnostic d)) (hk : d.kind = .lexical)
    (hi : d.incomplete = true) : ∃ pos, tokenize source = .error ⟨.unterminated, pos⟩ := by
  rcases Program.parse_eq_error.mp (compile_eq_diagnostic.mp h) with
    ⟨⟨fault, pos⟩, herror, rfl⟩ | ⟨toks, e, -, -, rfl⟩
  · have hfault : fault = .unterminated := of_decide_eq_true hi
    exact ⟨pos, hfault ▸ herror⟩
  · cases hk

/-- A number cannot be piped into, but on the next line it may become a call. -/
def Grammar.pipedIntoNumber : Bytes := "1 |> 2"

def Grammar.pipedIntoNumberReport : Diagnostic :=
  ⟨.grammatical, "Pipe target must be a function name or call, found number", pipedIntoNumber, [],
    ⟨1, 6⟩, false⟩

/-- The string is not closed, but the bracket before it is wrong in any case. -/
def Grammar.wrongBeforeString : Bytes := ")\""

def Grammar.wrongBeforeStringReport : Diagnostic :=
  ⟨.lexical, "Unterminated string", wrongBeforeString, [], ⟨1, 2⟩, true⟩

/-- The report on a text may tell too little of the lines that can follow, or too much. -/
theorem incompleteness_misjudged :
    (compile Grammar.pipedIntoNumber = .error (.diagnostic Grammar.pipedIntoNumberReport) ∧
      Grammar.pipedIntoNumberReport.incomplete = false ∧ Continues Grammar.pipedIntoNumber) ∧
    compile Grammar.wrongBeforeString = .error (.diagnostic Grammar.wrongBeforeStringReport) ∧
      Grammar.wrongBeforeStringReport.incomplete = true ∧
        ¬Continues Grammar.wrongBeforeString := by
  have hreport : compile Grammar.wrongBeforeString =
      .error (.diagnostic Grammar.wrongBeforeStringReport) :=
    compile_of_report (by decide +kernel)
  refine ⟨⟨compile_of_report (by decide +kernel), rfl, "(3)", ?_⟩, hreport, rfl, ?_⟩
  · exact eq_ok_of_isSome (by decide +kernel)
  · obtain ⟨pos, hopen⟩ := openString_of_report hreport rfl rfl
    rw [continues_of_openString hopen]
    rintro ⟨quote, ts, hq, hts, hcontinues⟩
    rw [Lexeme.isQuote, Bool.or_eq_true, beq_iff_eq, beq_iff_eq] at hq
    rcases hq with rfl | rfl
    · -- The string is closed, and the report is on the bracket.
      have hclosed : compile (Grammar.wrongBeforeString ++ Bytes.ofString "\n\"") =
          .error (.diagnostic ⟨.grammatical, "Unexpected token ')'",
            Grammar.wrongBeforeString ++ Bytes.ofString "\n\"", [], ⟨1, 1⟩, false⟩) :=
        compile_of_report (by decide +kernel)
      rcases ((continues_iff_mendable hts).mp hcontinues).late _ hclosed with hi | hp
      · cases hi
      · exact absurd hp (by decide +kernel)
    · have hnone : seen? (Grammar.wrongBeforeString ++ Bytes.ofString "\n'") = none := by
        decide +kernel
      cases hnone.symm.trans hts

end PipeCompiler
