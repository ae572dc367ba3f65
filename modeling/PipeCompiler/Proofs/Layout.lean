import PipeCompiler.Proofs.Outcomes
import PipeCompiler.Proofs.ParserStability
import PipeCompiler.Proofs.Retokening

/-! Layout has no influence.

Neither the text nor the code of a program depends on how its tokens are labelled. So two texts
whose tokens agree in kind and literal, line breaks aside, compile to the same code, or fail with
the same message. -/
namespace PipeCompiler

open Grammar

variable {f : Token.Relabelling}

private theorem GrammarError.message_relabel (e : GrammarError) :
    (e.relabel f).message = e.message := by
  simp only [message, relabel, f.kind_map, f.literal_map]

/-- What a token is and what it stands for. -/
def Token.content (tok : Token) : Token.Kind × Bytes :=
  (tok.kind, tok.literal)

/-- Nothing is left of where a token stands and how it is spelled. -/
def Token.Relabelling.plain : Token.Relabelling where
  map tok := ⟨tok.kind, tok.literal, [], .start⟩
  kind_map _ := rfl
  literal_map _ := rfl

open Token.Relabelling (plain)

private theorem map_plain_eq {toks toks' : List Token}
    (h : toks.map Token.content = toks'.map Token.content) : toks.map plain = toks'.map plain := by
  have hplain := congrArg (List.map fun c => (⟨c.1, c.2, [], .start⟩ : Token)) h
  rw [List.map_map, List.map_map] at hplain
  exact hplain

/-- A parser cannot tell texts apart that differ in layout only. -/
theorem Tokens.relabel_ofList_eq {c c' : Cursor} {toks toks' : List Token} (h : c.tokens = .ok toks)
    (h' : c'.tokens = .ok toks')
    (hsame : (toks.filter (·.kind ≠ .newline)).map Token.content =
      (toks'.filter (·.kind ≠ .newline)).map Token.content) :
    (ofList toks).relabel plain = (ofList toks').relabel plain := by
  obtain ⟨body, stop, rfl, hstop, hbody⟩ := Cursor.tokens_end h
  obtain ⟨body', stop', rfl, hstop', hbody'⟩ := Cursor.tokens_end h'
  have hplain := map_plain_eq hsame
  have hkept (x : Token) (hx : x.kind = .eof) : [x].filter (·.kind ≠ .newline) = [x] := by
    simp [hx]
  rw [List.filter_append, List.filter_append, List.map_append, List.map_append, hkept stop hstop,
    hkept stop' hstop'] at hplain
  obtain ⟨hahead, hlast⟩ := List.append_inj' hplain rfl
  rw [ofList_end hstop hbody, ofList_end hstop' hbody', relabel, relabel, hahead,
    List.singleton_inj.mp hlast]

private theorem compiled_code_eq {source source' : Bytes} {r r' : Compiled}
    (h : compile source = .ok r)
    (h' : compile source' = .ok r') (hsame : r'.program.relabel f = r.program.relabel f) :
    r'.code = r.code := by
  obtain ⟨hparse, hcode⟩ := compile_eq_ok.mp h
  obtain ⟨hparse', hcode'⟩ := compile_eq_ok.mp h'
  have hcodes : r'.program.code = r.program.code := by
    calc r'.program.code = (r'.program.relabel f).code :=
          (Program.code_retoken (Program.parse_formed hparse')).symm
      _ = (r.program.relabel f).code := by rw [hsame]
      _ = r.program.code := Program.code_retoken (Program.parse_formed hparse)
  rw [hcode, hcode'] at hcodes
  exact Except.ok.inj hcodes

/-- If the tokens of two texts agree in kind and literal, line breaks aside, then either both texts
compile to the same code, and the programs differ only in where their tokens stand and how they are
spelled, or both fail with the same message, and more text may help both or neither. -/
theorem layout_has_no_influence {source source' : Bytes} {toks toks' : List Token}
    (h : tokenize source = .ok toks) (h' : tokenize source' = .ok toks')
    (hsame : (toks.filter (·.kind ≠ .newline)).map Token.content =
      (toks'.filter (·.kind ≠ .newline)).map Token.content) :
    (∃ r r', compile source = .ok r ∧ compile source' = .ok r' ∧ r'.code = r.code ∧
        r'.program.print = r.program.print ∧
        r'.program.relabel plain = r.program.relabel plain) ∨
      ∃ d d', compile source = .error (.diagnostic d) ∧ compile source' = .error (.diagnostic d') ∧
        d'.message = d.message ∧ d'.incomplete = d.incomplete := by
  have hrun := Parser.program_commutes plain (Tokens.ofList_stop toks)
  have hrun' := Parser.program_commutes plain (Tokens.ofList_stop toks')
  rw [Tokens.relabel_ofList_eq h h' hsame, hrun'] at hrun
  cases hp : Parser.program (Tokens.ofList toks) with
  | ok p rest =>
    cases hp' : Parser.program (Tokens.ofList toks') with
    | error e' rest' => simp [hp, hp', Parser.relabelled] at hrun
    | ok p' rest' =>
      simp only [hp, hp', Parser.relabelled, EStateM.Result.ok.injEq] at hrun
      obtain ⟨code, hcompile⟩ := compile_of_program h hp
      obtain ⟨code', hcompile'⟩ := compile_of_program h' hp'
      have hcode : code' = code := compiled_code_eq hcompile hcompile' hrun.1
      have hprint : p'.print = p.print := by
        calc p'.print = (p'.relabel plain).print := (Program.print_retoken p').symm
          _ = (p.relabel plain).print := by rw [hrun.1]
          _ = p.print := Program.print_retoken p
      exact .inl ⟨_, _, hcompile, hcompile', hcode, hprint, hrun.1⟩
  | error e rest =>
    cases hp' : Parser.program (Tokens.ofList toks') with
    | ok p' rest' => simp [hp, hp', Parser.relabelled] at hrun
    | error e' rest' =>
      simp only [hp, hp', Parser.relabelled, EStateM.Result.error.injEq] at hrun
      have hmessage : e'.message = e.message := by
        rw [← e'.message_relabel, hrun.1, e.message_relabel]
      have hkind : e'.tok.kind = e.tok.kind := congrArg (fun e => e.tok.kind) hrun.1
      refine .inr ⟨_, _, compile_of_grammarError h hp, compile_of_grammarError h' hp', hmessage, ?_⟩
      simp only [GrammarError.diagnostic, hkind]

/-- A text without any layout. -/
def Grammar.denseText : Bytes :=
  "fn f(xs)\x7breturn xs|>map(|x|x+'a\\'b')\x7d"

/-- The same with blanks, comments and line breaks, and another spelling of its string. -/
def Grammar.sparseText : Bytes :=
  "fn f ( xs ) \x7b // first\n\n  return\n    xs |> map(\n\t|x| x + \"a'b\")\n\x7d\n"

theorem layout_has_no_influence_sparseText :
    ∃ r r', compile denseText = .ok r ∧ compile sparseText = .ok r' ∧ r'.code = r.code ∧
      r'.program.print = r.program.print := by
  have hsame : (tokenize denseText).toOption.map
        (fun toks => (toks.filter (·.kind ≠ .newline)).map Token.content) =
      (tokenize sparseText).toOption.map
        (fun toks => (toks.filter (·.kind ≠ .newline)).map Token.content) := by
    decide +kernel
  obtain ⟨toks, h⟩ := eq_ok_of_isSome (x := tokenize denseText) (by decide +kernel)
  obtain ⟨toks', h'⟩ := eq_ok_of_isSome (x := tokenize sparseText) (by decide +kernel)
  obtain ⟨r, hr⟩ := eq_ok_of_isSome (x := compile denseText) (by decide +kernel)
  rw [h, h'] at hsame
  rcases layout_has_no_influence h h' (Option.some.inj hsame) with hcompiles | ⟨d, d', hd, -⟩
  · obtain ⟨r, r', hr, hr', hcode, hprint, -⟩ := hcompiles
    exact ⟨r, r', hr, hr', hcode, hprint⟩
  · rw [hr] at hd
    cases hd

end PipeCompiler
