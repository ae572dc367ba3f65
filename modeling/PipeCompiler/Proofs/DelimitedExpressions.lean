import PipeCompiler.Proofs.Formation
import PipeCompiler.Proofs.Numerals
import PipeCompiler.Proofs.ParserCompleteness
import PipeCompiler.Proofs.ParserSoundness

/-! Every derivable expression is read.

Anonymous functions and choices take whatever may still belong to them. An expression in which they
stand only where the tokens around them stop them (`Expr.Delimited`) shows where it ends: each
derivation of it is greedy before a token that ends it (`Ends`), and so the parser finds it. -/
namespace PipeCompiler

open PipeCompiler.Parser
open Grammar (Derives Greedy IsName Level Listed Opens Phrase first)
open Tokens (before)

namespace Expr

/-- Takes whatever may still belong to it. -/
def isGreedy : Expr → Bool
  | .lambda .. | .cond .. => true
  | _ => false

/-- Every expression in it is an allowed one, and wherever an anonymous function or a choice stands
in it the text around shows where that ends: it is neither an operand nor a callee, and neither the
condition of a choice nor what follows from it. There are no blocks. -/
inductive Delimited (allowed : Expr → Prop) : Expr → Prop
  | name {n : Name} (ha : allowed (.name n)) : Delimited allowed (.name n)
  | number {tok : Token} {value : Double} (ha : allowed (.number tok value)) :
      Delimited allowed (.number tok value)
  | string {tok : Token} {value : Bytes} (ha : allowed (.string tok value)) :
      Delimited allowed (.string tok value)
  | bool {tok : Token} {value : Bool} (ha : allowed (.bool tok value)) :
      Delimited allowed (.bool tok value)
  | null {tok : Token} (ha : allowed (.null tok)) : Delimited allowed (.null tok)
  | array {tok : Token} {items : List Expr} (ha : allowed (.array tok items))
      (hi : ∀ x ∈ items, Delimited allowed x) : Delimited allowed (.array tok items)
  | unary {tok : Token} {op : Bytes} {operand : Expr} (ha : allowed (.unary tok op operand))
      (ho : Delimited allowed operand) (hg : operand.isGreedy = false) :
      Delimited allowed (.unary tok op operand)
  | binary {tok : Token} {op : Bytes} {left right : Expr} (ha : allowed (.binary tok left op right))
      (hl : Delimited allowed left) (hr : Delimited allowed right) (hgl : left.isGreedy = false)
      (hgr : right.isGreedy = false) : Delimited allowed (.binary tok left op right)
  | pipe {tok : Token} {left target : Expr} (ha : allowed (.pipe tok left target))
      (hl : Delimited allowed left) (ht : Delimited allowed target) (hgl : left.isGreedy = false)
      (hgt : target.isGreedy = false) : Delimited allowed (.pipe tok left target)
  | call {tok : Token} {callee : Expr} {args : List Expr} (ha : allowed (.call tok callee args))
      (hc : Delimited allowed callee) (hargs : ∀ x ∈ args, Delimited allowed x)
      (hg : callee.isGreedy = false) : Delimited allowed (.call tok callee args)
  | lambda {tok : Token} {params : List Name} {body : Expr}
      (ha : allowed (.lambda tok params body)) (hb : Delimited allowed body) :
      Delimited allowed (.lambda tok params body)
  | ifThen {tok : Token} {test yes : Expr} (ha : allowed (.cond tok test yes .missing))
      (ht : Delimited allowed test) (hy : Delimited allowed yes) (hgt : test.isGreedy = false)
      (hgy : yes.isGreedy = false) : Delimited allowed (.cond tok test yes .missing)
  | ifThenElse {tok : Token} {test yes no : Expr} (ha : allowed (.cond tok test yes no))
      (ht : Delimited allowed test) (hy : Delimited allowed yes) (hn : Delimited allowed no)
      (hgt : test.isGreedy = false) (hgy : yes.isGreedy = false) :
      Delimited allowed (.cond tok test yes no)

theorem Delimited.isAllowed {allowed : Expr → Prop} {e : Expr} (h : e.Delimited allowed) :
    allowed e := by
  cases h <;> assumption

end Expr

/-- What follows ends an expression of a level: no suffix of the level or of a tighter one begins
there, and nothing at all that a greedy expression would take. -/
def Ends (level : Level) (e : Expr) (k : Token.Kind) : Prop :=
  k ∉ level.continuations ∧
    (e.isGreedy = true → k ∉ Level.pipeline.continuations ∧ k ≠ .elseWord)

theorem Ends.tighter {level : Level} {e : Expr} {k : Token.Kind} (h : Ends level e k) :
    k ∉ level.suffixes ∧ Ends level.tighter e k := by
  obtain ⟨hk, hg⟩ := h
  rw [Level.continuations_eq, List.mem_append, not_or] at hk
  exact ⟨hk.1, hk.2, hg⟩

/-- A token that stands between phrases ends any expression. -/
theorem ends_pipeline {e : Expr} {k : Token.Kind}
    (h : k ∈ [.comma, .rparen, .rbracket, .thenWord]) : Ends .pipeline e k := by
  have hk : k ∉ Level.pipeline.continuations ∧ k ≠ .elseWord := by
    revert k
    decide
  exact ⟨hk.1, fun _ => hk⟩

/-- What follows a greedy expression that stands in a place of its own. -/
theorem Ends.pipeline {level : Level} {e e' : Expr} {k : Token.Kind} (h : Ends level e k)
    (hg : e.isGreedy = true) : Ends .pipeline e' k :=
  ⟨(h.2 hg).1, fun _ => h.2 hg⟩

theorem Ends.of_not_greedy {level : Level} {e e' : Expr} {k : Token.Kind} (h : Ends level e k)
    (hg : e'.isGreedy = false) : Ends level e' k :=
  ⟨h.1, fun hg' => absurd hg' (by simp [hg])⟩

/-- The expression is read greedily before whatever ends it, and it begins with no block. If it
begins like a choice it is one. -/
structure ReadGreedily (level : Level) (e : Expr) (ts : List Token) : Prop where
  greedy : ∀ next, Ends level.tighter e next → Greedy (.expr level e) ts next
  begins : Opens ts level.starts
  choice : first ts .eof = .ifWord →
    e.isGreedy = true ∧ ∀ next, Ends .pipeline e next → Greedy (.choice e) ts next

namespace ReadGreedily

variable {level : Level} {e left wider : Expr} {tok : Token} {ts us : List Token}

theorem loosen (h : ReadGreedily level.tighter e ts) : ReadGreedily level e ts where
  greedy next hend := .tighter (h.greedy next hend.tighter.2) hend.tighter.1
  begins := h.begins.mono fun _ => Level.starts_tighter
  choice := h.choice

/-- One more suffix of the level. -/
theorem extend (hl : ReadGreedily level left ts) (hg : left.isGreedy = false)
    (ht : tok.kind ∈ level.suffixes)
    (hs : ∀ next, Ends level.tighter wider next → Greedy (.expr level left) ts tok.kind →
      Greedy (.expr level wider) (ts ++ tok :: us) next) :
    ReadGreedily level wider (ts ++ tok :: us) where
  greedy next hend :=
    hs next hend
      (hl.greedy tok.kind ⟨Level.notMem_tighter ht, fun hg' => absurd hg' (by simp [hg])⟩)
  begins := hl.begins.append _
  choice hif := by
    rw [Grammar.first_append, hl.begins.first_eq _ .eof] at hif
    exact absurd (hl.choice hif).1 (by simp [hg])

/-- What begins with a token of its own, which is not that of a choice. -/
theorem ofToken (ht : tok.kind ∈ level.starts) (hif : tok.kind ≠ .ifWord)
    (h : ∀ next, Ends level.tighter e next → Greedy (.expr level e) (tok :: us) next) :
    ReadGreedily level e (tok :: us) where
  greedy := h
  begins := .cons ht
  choice hk := absurd hk hif

theorem ends {next : Token.Kind} (h : ReadGreedily .pipeline e ts) (hend : Ends .pipeline e next) :
    Greedy (.expr .pipeline e) ts next ∧ next ≠ .pipe :=
  ⟨h.greedy next hend.tighter.2, by simpa [Level.suffixes] using hend.tighter.1⟩

theorem branch {next : Token.Kind} (h : ReadGreedily .pipeline e ts)
    (hend : Ends .pipeline e next) :
    Greedy (.branch e) ts next := by
  refine .exprBranch (h.ends hend).1 (h.ends hend).2 fun hbrace => ?_
  have hmem := h.begins.first_mem next
  rw [hbrace] at hmem
  revert hmem
  decide

theorem alternative {next : Token.Kind} (h : ReadGreedily .pipeline e ts)
    (hend : Ends .pipeline e next) : Greedy (.alternative e) ts next := by
  by_cases hif : first ts .eof = .ifWord
  · exact .elseIf ((h.choice hif).2 next hend)
  · refine .elseBranch (h.branch hend) ?_
    rwa [h.begins.first_eq next .eof]

end ReadGreedily

/-- What a derivation of a phrase comes to if the phrase shows where it ends. -/
def Shown (allowed : Expr → Prop) : Phrase → List Token → Prop
  | .expr level e, ts => e.Delimited allowed → ReadGreedily level e ts
  | .choice e, ts => e.Delimited allowed → e.isGreedy = true ∧ Opens ts [.ifWord] ∧
      ∀ next, Ends .pipeline e next → Greedy (.choice e) ts next
  | .consequence e, ts => e.Delimited allowed → Opens ts [.thenWord] ∧
      ∀ next, Ends .pipeline e next → Greedy (.consequence e) ts next
  | .alternative e, ts => e.Delimited allowed →
      ∀ next, Ends .pipeline e next → Greedy (.alternative e) ts next
  | .branch e, ts => e.Delimited allowed → ReadGreedily .pipeline e ts
  | .exprs closing es, ts => (∀ e ∈ es, e.Delimited allowed) → closing ∈ [.rparen, .rbracket] →
      ∀ next, Greedy (.exprs closing es) ts next
  | .statement _, _ | .statements _, _ | .block .., _ => True

variable {allowed : Expr → Prop}

/-- The parts of a choice. What follows the consequence is the word `else`, or it is what follows
the choice. -/
private theorem shown_test {test yes : Expr} {cs ys : List Token} {next : Token.Kind}
    (hc : ReadGreedily .pipeline test cs) (hy : Opens ys [.thenWord]) (hg : yes.isGreedy = false)
    (hnext : next ∉ Level.pipeline.continuations) :
    Greedy (.expr .pipeline test) cs (first ys next) ∧ Ends .pipeline yes next := by
  have hthen : first ys next = .thenWord := List.mem_singleton.mp (hy.first_mem next)
  rw [hthen]
  exact ⟨(hc.ends (ends_pipeline (by simp))).1, hnext, fun hg' => absurd hg' (by simp [hg])⟩

private theorem shown_item {e : Expr} {ts : List Token} {next : Token.Kind}
    (h : ReadGreedily .pipeline e ts) (hnext : next ∈ [.comma, .rparen, .rbracket]) :
    Greedy (.expr .pipeline e) ts next := by
  refine (h.ends (ends_pipeline ?_)).1
  revert next
  decide

theorem Grammar.Derives.shown {phrase : Phrase} {ts : List Token} (h : Derives phrase ts) :
    Shown allowed phrase ts := by
  induction h with
  | declare | conciseFunction | blockFunction | leave | ret | whileLoop | forLoop | assign
  | exprStatement | noStatements | moreStatements | block => trivial
  | tighter he ih => exact fun hd => (ih hd).loosen
  | @pipe tok ls rs left target hl ht hr hp ihl ihr =>
    intro hd
    cases hd with
    | pipe _ hdl hdt hgl hgt =>
      refine (ihl hdl).extend hgl (by simp [ht, Level.suffixes]) fun next hend hleft => ?_
      have htarget := (hend.of_not_greedy hgt).tighter
      exact .pipe (ht ▸ hleft) ht ((ihr hdt).greedy next htarget.2) htarget.1 hp
  | @binary level op ls rs left right hl ho hr ihl ihr =>
    intro hd
    cases hd with
    | binary _ hdl hdr hgl hgr =>
      refine (ihl hdl).extend hgl (Level.mem_suffixes ho) fun next hend hleft => ?_
      have hright := (hend.of_not_greedy hgr).tighter
      exact .binary hleft ho ((ihr hdr).greedy next hright.2) hright.1
  | @unary op ts operand ho he ih =>
    intro hd
    cases hd with
    | unary _ hdo hg =>
      refine .ofToken (by rcases ho with ho | ho <;> simp [ho, Level.starts]) ?_ fun next hend => ?_
      · rcases ho with ho | ho <;> simp [ho]
      · exact .unary ho ((ih hdo).greedy next (hend.of_not_greedy hg))
  | @call tok ls rs callee args hl ht hr ihl ihr =>
    intro hd
    cases hd with
    | call _ hdc hda hg =>
      refine (ihl hdc).extend hg (by simp [ht, Level.suffixes]) fun next hend hcallee => ?_
      exact .call (ht ▸ hcallee) ht (ihr hda (by simp) next)
  | @choicePrimary ts e he ih =>
    intro hd
    obtain ⟨hg, hif, hchoice⟩ := ih hd
    exact {
      greedy := fun next hend => .choicePrimary (hchoice next (hend.pipeline hg))
      begins := hif.mono (by decide)
      choice := fun _ => ⟨hg, hchoice⟩ }
  | blockPrimary hb ih =>
    intro hd
    cases hd
  | lambda ht hps hb ih =>
    intro hd
    cases hd with
    | lambda _ hbody =>
      refine .ofToken (by simp [ht, Level.starts]) (by simp [ht]) fun next hend => ?_
      exact .lambda ht hps ((ih hbody).branch (hend.pipeline rfl))
  | thunk ht hb ih =>
    intro hd
    cases hd with
    | lambda _ hbody =>
      refine .ofToken (by simp [ht, Level.starts]) (by simp [ht]) fun next hend => ?_
      exact .thunk ht ((ih hbody).branch (hend.pipeline rfl))
  | array ht hx ih =>
    intro hd
    cases hd with
    | array _ hdi =>
      refine .ofToken (by simp [ht, Level.starts]) (by simp [ht]) fun next _ => ?_
      exact .array ht (ih hdi (by simp) next)
  | parens hp he hc ih =>
    intro hd
    refine .ofToken (by simp [hp, Level.starts]) (by simp [hp]) fun next _ => ?_
    exact .parens hp (shown_item (ih hd) (by simp)) hc
  | number ht hv =>
    exact fun _ => .ofToken (by simp [ht, Level.starts]) (by simp [ht]) fun _ _ => .number ht hv
  | string ht =>
    exact fun _ => .ofToken (by simp [ht, Level.starts]) (by simp [ht]) fun _ _ => .string ht
  | bool ht =>
    intro _
    refine .ofToken ?_ ?_ fun _ _ => .bool ht
    · rcases ht with ht | ht <;> simp [ht, Level.starts]
    · rcases ht with ht | ht <;> simp [ht]
  | null ht =>
    exact fun _ => .ofToken (by simp [ht, Level.starts]) (by simp [ht]) fun _ _ => .null ht
  | name hi =>
    exact fun _ => .ofToken (by simp [hi, Level.starts]) (by simp [hi]) fun _ _ => .name hi
  | @ifThen tok cs ys test yes ht hc hy ihc ihy =>
    intro hd
    refine ⟨rfl, .cons (by simp [ht]), fun next hend => ?_⟩
    cases hd with
    | ifThen _ hdt hdy hgt hgy =>
      obtain ⟨hthen, hyes⟩ := ihy hdy
      obtain ⟨htest, hafter⟩ := shown_test (ihc hdt) hthen hgy hend.1
      exact .ifThen ht htest (hyes next hafter) (hend.2 rfl).2
    | ifThenElse _ _ _ hdn => cases hdn
  | @ifThenElse tok word cs ys ns test yes no ht hc hy hw hn ihc ihy ihn =>
    intro hd
    refine ⟨rfl, .cons (by simp [ht]), fun next hend => ?_⟩
    cases hd with
    | ifThen => exact absurd rfl (hn.formed (P := fun _ => True) (by simp)).ne_missing
    | ifThenElse _ hdt hdy hdn hgt hgy =>
      obtain ⟨hthen, hyes⟩ := ihy hdy
      have hnext : .elseWord ∉ Level.pipeline.continuations := by decide
      obtain ⟨htest, hafter⟩ := shown_test (ihc hdt) hthen hgy hnext
      exact .ifThenElse ht htest (hyes _ hafter) hw (ihn hdn next (hend.pipeline rfl))
  | blockConsequence hb =>
    intro hd
    cases hd
  | thenConsequence hw he ih =>
    intro hd
    exact ⟨.cons (by simp [hw]), fun next hend => .thenConsequence hw ((ih hd).branch hend)⟩
  | elseIf he ih => exact fun hd next hend => .elseIf ((ih hd).2.2 next hend)
  | elseBranch he ih => exact fun hd next hend => (ih hd).alternative hend
  | blockBranch hb ih =>
    intro hd
    cases hd
  | exprBranch he ih => exact ih
  | noExprs hc => exact fun _ _ _ => .noExprs hc
  | lastExpr he hc ih =>
    intro hd hclosing next
    exact .lastExpr (shown_item (ih (hd _ (by simp))) (List.mem_cons_of_mem _ hclosing)) hc
  | moreExprs he hc hx ihe ihx =>
    intro hd hclosing next
    refine .moreExprs (shown_item (ihe (hd _ (by simp))) (by simp)) hc (ihx ?_ hclosing next)
    exact fun x hx => hd x (by simp_all)

/-- An expression that shows where it ends is read if its tokens derive it. -/
theorem Grammar.Derives.takes {e : Expr} {ts : List Token} {n : Nat} {rest : Tokens}
    (h : Derives (.expr .pipeline e) ts) (he : e.Delimited allowed)
    (hend : Ends .pipeline e rest.current.kind) (hn : ts.length + rest.ahead.length ≤ n) :
    Takes ts rest (Phrases.upTo n).expr e := by
  have hshown := (h.shown he).ends hend
  exact hshown.1.found.takesExpr (h.shown he).begins hshown.2 rfl hn

/-- Neither a line break nor the end of input is part of a phrase. -/
def Token.InPhrases (tok : Token) : Prop :=
  tok.kind ≠ .newline ∧ tok.kind ≠ .eof

theorem Grammar.Listed.inPhrases {closing : Token.Kind} {ts : List Token} {ns : List Name}
    (h : Listed IsName closing ts ns) (hc : closing = .bar ∨ closing = .rparen) :
    ∀ tok ∈ ts, tok.InPhrases := by
  induction h with
  | empty hclose => grind [Token.InPhrases]
  | last hx hclose => grind [Token.InPhrases, IsName]
  | more hx hcomma _ ih => grind [Token.InPhrases, IsName]

/-- A list is closed by a token that may be part of a phrase. -/
def Grammar.Phrase.Closes : Phrase → Prop
  | .exprs closing _ => closing ≠ .newline ∧ closing ≠ .eof
  | _ => True

theorem Grammar.Derives.inPhrases {phrase : Phrase} {ts : List Token} (h : Derives phrase ts)
    (hc : phrase.Closes) : ∀ tok ∈ ts, tok.InPhrases := by
  induction h with
  | moreStatements hs he hb ihs ihb =>
    grind [Token.InPhrases, Grammar.IsEnding, Grammar.Phrase.Closes]
  | conciseFunction ht hi hp hps hs hb ih =>
    have hnames := hps.inPhrases (.inr rfl)
    grind [Token.InPhrases, Grammar.Phrase.Closes]
  | blockFunction ht hi hp hps hb ih =>
    have hnames := hps.inPhrases (.inr rfl)
    grind [Token.InPhrases, Grammar.Phrase.Closes]
  | lambda ht hps hb ih =>
    have hnames := hps.inPhrases (.inl rfl)
    grind [Token.InPhrases, Grammar.Phrase.Closes]
  | @binary level op ls rs left right hl ho hr ihl ihr =>
    have hop : op.InPhrases := by
      unfold Token.InPhrases
      generalize op.kind = k at ho
      revert k
      cases level <;> decide
    grind [Grammar.Phrase.Closes]
  | _ => grind [Token.InPhrases, Grammar.Phrase.Closes]

/-- The tokens of a phrase are all seen, before those that follow. -/
theorem Tokens.ofList_append {ts rest : List Token} (hts : ∀ tok ∈ ts, tok.InPhrases)
    (hrest : ∃ stop ∈ rest.getLast?, stop.kind = .eof) :
    ofList (ts ++ rest) = before ts (ofList rest) := by
  have hfilter : ts.filter (·.kind ≠ .newline) = ts :=
    List.filter_eq_self.mpr fun tok ht => by simpa using (hts tok ht).1
  have heof : ∀ tok ∈ ts, decide (tok.kind ≠ .eof) = true := fun tok ht => by
    simpa using (hts tok ht).2
  unfold ofList
  simp only [List.filter_append, hfilter, List.takeWhile_append_of_pos heof,
    List.dropWhile_append_of_pos heof]
  cases hdrop : (rest.filter (·.kind ≠ .newline)).dropWhile (·.kind ≠ .eof) with
  | cons stop after => rfl
  | nil =>
    obtain ⟨stop, hstop, hkind⟩ := hrest
    have hmem : stop ∈ rest.filter (·.kind ≠ .newline) := by
      simp [List.mem_of_getLast? hstop, hkind]
    have hall := List.dropWhile_eq_nil_iff.mp hdrop stop hmem
    simp [hkind] at hall

/-- Built from names, literals, lists, calls, operators and pipes alone. -/
abbrev Expr.IsOperation (e : Expr) : Prop := e.Delimited fun x => x.isGreedy = false

/-- Every expression that the grammar derives from names, literals, lists, parentheses, calls,
operators and pipes is read, whatever follows it, if what follows begins with none of the tokens
that make an expression wider: the tree of the derivation is the result, and the parser leaves off
where the derivation ends. Line breaks at the head of what follows are passed over, so it is the
first token behind them that must not make the expression wider. Each token with the text of a
number is such an expression. -/
theorem expression_parsing_complete {e : Expr} {ts rest : List Token}
    (h : Derives (.expr .pipeline e) ts) (he : e.IsOperation)
    (hrest : ∃ stop ∈ rest.getLast?, stop.kind = .eof)
    (hop : ∀ level : Level, (Tokens.ofList rest).current.kind ∉ level.operators)
    (hpipe : (Tokens.ofList rest).current.kind ≠ .pipe)
    (hparen : (Tokens.ofList rest).current.kind ≠ .lparen) :
    (∀ n ≥ (Tokens.ofList (ts ++ rest)).ahead.length,
      (Phrases.upTo n).expr (Tokens.ofList (ts ++ rest)) = .ok e (Tokens.ofList rest)) ∧
    ∀ tok : Token, tok.kind = .number → Lexeme.IsNumber tok.literal →
      ∃ value, Derives (.expr .primary (.number tok value)) [tok] := by
  constructor
  · intro n hn
    rw [Tokens.ofList_append (h.inPhrases trivial) hrest] at hn ⊢
    have hend : Ends .pipeline e (Tokens.ofList rest).current.kind := by
      refine ⟨?_, fun hg => absurd hg (by simp [he.isAllowed])⟩
      simp only [Level.continuations, List.mem_flatMap, not_exists, not_and]
      intro level _
      have hlevel := hop level
      cases level with
      | pipeline => simpa [Level.suffixes] using hpipe
      | call => simpa [Level.suffixes] using hparen
      | _ => exact hlevel
    exact h.takes he hend (by simpa using hn)
  · intro tok hk hliteral
    obtain ⟨k, -, hvalue⟩ := Double.read?_isNumber hliteral
    exact ⟨_, .number hk hvalue⟩

namespace Grammar.NestedDifference

def minus : Token := .handmade .minus "-"
def opening : Token := .handmade .lparen "("
def closing : Token := .handmade .rparen ")"
def one : Token := .handmade .number "1"
def pipe : Token := .handmade .pipe "|>"
def name (text : String) : Token := .handmade .ident text

/-- `a - (b - f(1)) |> g` -/
def tokens : List Token :=
  [name "a", minus, opening, name "b", minus, name "f", opening, one, closing, closing, pipe,
    name "g"]

/-- What follows begins with a line break and a closing parenthesis. -/
def rest : List Token :=
  [.handmade .newline "\n", closing, minus, .handmade .eof ""]

def call : Expr := .call opening (.name (.mk (name "f") "f")) [.number one ⟨0x3FF0000000000000⟩]

def inside : Expr := .binary minus (.name (.mk (name "b") "b")) "-" call

def difference : Expr := .binary minus (.name (.mk (name "a") "a")) "-" inside

def tree : Expr := .pipe pipe difference (.name (.mk (name "g") "g"))

theorem derives : Derives (.expr .pipeline tree) tokens := by
  have hname (text : String) : Derives (.expr .call (.name (.mk (name text) text))) [name text] :=
    .tighter (.name rfl)
  have hone : Derives (.expr .call (.number one ⟨0x3FF0000000000000⟩)) [one] :=
    .tighter (.number rfl (by decide +kernel))
  have hargs := @Derives.lastExpr .rparen closing _ _ hone.loosest rfl
  have hcall : Derives (.expr .call call) _ :=
    @Derives.call opening _ _ _ _ (hname "f") rfl hargs
  have hinside : Derives (.expr .sum inside) _ :=
    @Derives.binary .sum minus _ _ _ _ ((hname "b").ofCall (by decide)) (by decide)
      (hcall.ofCall (by decide))
  have hparens := @Derives.parens opening closing _ _ rfl hinside.loosest rfl
  have hdifference : Derives (.expr .sum difference) _ :=
    @Derives.binary .sum minus _ _ _ _ ((hname "a").ofCall (by decide)) (by decide)
      (Derives.ofCall (.tighter hparens) (by decide))
  exact @Derives.pipe pipe _ _ _ _ hdifference.loosest rfl ((hname "g").ofCall (by decide))
    (.inl ⟨_, rfl⟩)

theorem isOperation : tree.IsOperation := by
  have hcall : call.IsOperation := .call rfl (.name rfl) (by simpa using .number rfl) rfl
  have hinside : inside.IsOperation := .binary rfl (.name rfl) hcall rfl rfl
  exact .pipe rfl (.binary rfl (.name rfl) hinside rfl rfl) (.name rfl) rfl rfl

end Grammar.NestedDifference

section

open Grammar.NestedDifference

theorem expression_parsing_complete_nestedDifference :
    (Phrases.upTo 14).expr (Tokens.ofList (tokens ++ rest)) = .ok tree (Tokens.ofList rest) := by
  have hop : ∀ level : Level, (Tokens.ofList rest).current.kind ∉ level.operators := by
    intro level
    cases level <;> decide
  have hread := expression_parsing_complete derives isOperation ⟨_, rfl, rfl⟩ hop
    (by decide) (by decide)
  exact hread.1 14 (by decide)

end

end PipeCompiler
