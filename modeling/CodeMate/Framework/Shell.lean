import Mathlib.Data.List.Forall2

/-!
# Lists of shell commands

The part of the shell language with simple commands of plain words, `&&`, `||`,
`;` and brace groups. `parse` reads the text of a list of commands and
`runList` runs it, given what its simple commands do. `parse_after` is a list
with another one after it, and `run_chain` a chain of `&&`.
-/

namespace Framework.Shell

abbrev Word := List Char

/-! ## Words and operators -/

inductive Token
  | word (text : Word)
  | andIf
  | orIf
  | semi
  deriving DecidableEq

/-- A character that stands for itself. -/
def isPlain (c : Char) : Bool :=
  c.isAlphanum || ['-', '_', '.', '/', ':', '@', '%', '+', ',', '{', '}'].any (· == c)

def flush (word : Word) : List Token := if word = [] then [] else [.word word]

/-- The tokens of a text after the first characters of a word; `none` if a character does not stand for itself. -/
def lexFrom (word : Word) : List Char → Option (List Token)
  | [] => some (flush word)
  | '&' :: '&' :: text => (lexFrom [] text).map fun tokens => flush word ++ .andIf :: tokens
  | '|' :: '|' :: text => (lexFrom [] text).map fun tokens => flush word ++ .orIf :: tokens
  | c :: text =>
    if c = ' ' then (lexFrom [] text).map fun tokens => flush word ++ tokens
    else if c = ';' then (lexFrom [] text).map fun tokens => flush word ++ .semi :: tokens
    else if isPlain c then lexFrom (word ++ [c]) text
    else none

def lex (text : List Char) : Option (List Token) := lexFrom [] text

/-! ## Programs -/

inductive Program
  | simple (words : List Word)
  | group (body : List Program)
  | and (left right : Program)
  | or (left right : Program)

/-- An open list: the commands before the last `;`, and the operand before the last `&&` (`true`) or `||`. -/
structure Level where
  done : List Program
  chain : Option (Program × Bool)

/-- What is read of a command. -/
inductive Part
  | empty
  | begun (words : List Word)
  | closed (body : List Program)

/-- The state of the parser: the list of the text, those that are open in it, the innermost first, and a command. -/
structure Reader where
  outermost : Level
  inner : List Level
  part : Part

def Part.program? : Part → Option Program
  | empty => none
  | begun words => some (.simple words)
  | closed body => some (.group body)

/-- `&&` and `||` join from the left, and neither binds more tightly. -/
def Level.joined (level : Level) (last : Program) : Program :=
  match level.chain with
  | none => last
  | some (left, true) => .and left last
  | some (left, false) => .or left last

def Level.close (level : Level) (last : Program) : Level := ⟨level.done ++ [level.joined last], none⟩

def Level.connect (isAnd : Bool) (level : Level) (last : Program) : Level :=
  ⟨level.done, some (level.joined last, isAnd)⟩

def openBrace : Word := ['{']

def closeBrace : Word := ['}']

/-- The words other than braces that begin or end a compound command. -/
def reserved : List Word :=
  ["if".toList, "then".toList, "else".toList, "elif".toList, "fi".toList, "do".toList, "done".toList, "case".toList,
    "esac".toList, "while".toList, "until".toList, "for".toList, "in".toList]

namespace Reader

def start : Reader := ⟨⟨[], none⟩, [], .empty⟩

/-- A command ends, and the innermost list has it. -/
def endPart (finish : Level → Program → Level) (reader : Reader) : Option Reader :=
  reader.part.program?.map fun last =>
    match reader.inner with
    | [] => ⟨finish reader.outermost last, [], .empty⟩
    | level :: outer => ⟨reader.outermost, finish level last :: outer, .empty⟩

/-- A word; a brace is one where a command can begin. -/
def word (reader : Reader) (word : Word) : Option Reader :=
  match reader.part with
  | .begun words => some { reader with part := .begun (words ++ [word]) }
  | .closed _ => none
  | .empty =>
    if word = openBrace then some { reader with inner := ⟨[], none⟩ :: reader.inner }
    else if word = closeBrace then
      match reader.inner with
      | ⟨command :: commands, none⟩ :: outer => some ⟨reader.outermost, outer, .closed (command :: commands)⟩
      | _ => none
    else if reserved.any (· == word) then none
    else some { reader with part := .begun [word] }

def step (reader : Reader) : Token → Option Reader
  | .word text => reader.word text
  | .andIf => reader.endPart (Level.connect true)
  | .orIf => reader.endPart (Level.connect false)
  | .semi => reader.endPart Level.close

/-- The commands of the whole text; it may end with a `;`. -/
def finish (reader : Reader) : Option (List Program) :=
  match reader.inner, reader.part.program? with
  | [], some last => some (reader.outermost.close last).done
  | [], none => if reader.outermost.chain.isSome then none else some reader.outermost.done
  | _ :: _, _ => none

end Reader

/-- The commands of a text, one after the other; `none` for a text that is not of this part of the language. -/
def parse (text : List Char) : Option (List Program) := do
  let tokens ← lex text
  let reader ← tokens.foldlM Reader.step Reader.start
  reader.finish

/-! ## Running -/

/-- The state after a command, its exit status, and whether the shell has ended with it. -/
structure Outcome (σ : Type) where
  state : σ
  status : ℕ
  exited : Bool

variable {σ : Type}

/-- The next command, unless the shell has ended. -/
def Outcome.andThen (outcome : Outcome σ) (next : ℕ → σ → Outcome σ) : Outcome σ :=
  if outcome.exited then outcome else next outcome.status outcome.state

def decimal (digits : List Char) : ℕ := digits.foldl (fun n c => 10 * n + (c.toNat - 48)) 0

/-- The status with which `exit` ends the shell, if the words are such a command. -/
def exitStatus (last : ℕ) (words : List Word) : Option ℕ :=
  match words with
  | [name] => if name = "exit".toList then some last else none
  | [name, digits] => if name = "exit".toList ∧ digits.all Char.isDigit then some (decimal digits % 256) else none
  | _ => none

section

variable (exec : List Word → σ → σ × ℕ)

mutual

/-- A command after one with the status `last`, in a shell whose simple commands do `exec`. -/
def run : Program → (last : ℕ) → σ → Outcome σ
  | .simple words, last, s =>
    match exitStatus last words with
    | some status => ⟨s, status, true⟩
    | none => ⟨(exec words s).1, (exec words s).2, false⟩
  | .group body, last, s => runList body last s
  | .and left right, last, s =>
    (run left last s).andThen fun status s => if status = 0 then run right status s else ⟨s, status, false⟩
  | .or left right, last, s =>
    (run left last s).andThen fun status s => if status = 0 then ⟨s, status, false⟩ else run right status s

def runList : List Program → (last : ℕ) → σ → Outcome σ
  | [], last, s => ⟨s, last, false⟩
  | command :: commands, last, s => (run command last s).andThen (runList commands)

end

/-- Simple commands up to the first that fails. -/
def runWhile : List (List Word) → σ → σ × ℕ
  | [], s => (s, 0)
  | command :: commands, s =>
    if (exec command s).2 = 0 then runWhile commands (exec command s).1 else exec command s

end

/-! ## A list after another one -/

/-- A character that is not the first one of `&&` or `||`. -/
theorem lexFrom_cons (word : Word) {c : Char} {text : List Char} (hand : ∀ rest, c = '&' → text = '&' :: rest → False)
    (hor : ∀ rest, c = '|' → text = '|' :: rest → False) : lexFrom word (c :: text) =
      if c = ' ' then (lexFrom [] text).map fun tokens => flush word ++ tokens
      else if c = ';' then (lexFrom [] text).map fun tokens => flush word ++ .semi :: tokens
      else if isPlain c then lexFrom (word ++ [c]) text
      else none := by
  rw [lexFrom]
  · exact hand
  · exact hor

/-- A blank or a `;` ends a word. -/
theorem lexFrom_boundary {c : Char} (hc : c = ' ' ∨ c = ';') (word : Word) (text rest : List Char) :
    lexFrom word (text ++ c :: rest) =
      (lexFrom word text).bind fun tokens => (lex (c :: rest)).map fun others => tokens ++ others := by
  have hstart (word : Word) : lexFrom word (c :: rest) =
      (lex (c :: rest)).map fun others => flush word ++ others := by
    rcases hc with rfl | rfl <;> simp [lex, lexFrom, flush, Function.comp_def]
  have hnext {d e : Char} {text : List Char} (h : ∀ t, d = e → text = e :: t → False) (t : List Char) (hd : d = e)
      (htext : text ++ c :: rest = e :: t) (he : e = '&' ∨ e = '|') : False := by
    cases text with
    | nil =>
      obtain ⟨rfl, -⟩ := List.cons.inj htext
      rcases hc with rfl | rfl <;> simp at he
    | cons d' text =>
      obtain ⟨rfl, -⟩ := List.cons.inj htext
      exact h text hd rfl
  fun_induction lexFrom word text with
  | case1 word => exact hstart word
  | case2 word text ih => simp [lexFrom, ih, Option.map_bind, Option.bind_map, Function.comp_def]
  | case3 word text ih => simp [lexFrom, ih, Option.map_bind, Option.bind_map, Function.comp_def]
  | case4 word text h h' ih =>
    rw [List.cons_append, lexFrom_cons word (by simp) (by simp), if_pos rfl, ih]
    simp [Option.map_bind, Option.bind_map, Function.comp_def]
  | case5 word text h h' hblank ih =>
    rw [List.cons_append, lexFrom_cons word (by simp) (by simp), if_neg hblank, if_pos rfl, ih]
    simp [Option.map_bind, Option.bind_map, Function.comp_def]
  | case6 word d text h h' hblank hsemi hplain ih =>
    rw [List.cons_append, lexFrom_cons word (fun t hd ht => hnext h t hd ht (.inl rfl))
      (fun t hd ht => hnext h' t hd ht (.inr rfl)), if_neg hblank, if_neg hsemi, if_pos hplain, ih]
  | case7 word d text h h' hblank hsemi hplain =>
    rw [List.cons_append, lexFrom_cons word (fun t hd ht => hnext h t hd ht (.inl rfl))
      (fun t hd ht => hnext h' t hd ht (.inr rfl)), if_neg hblank, if_neg hsemi, if_neg hplain]
    rfl

theorem lex_boundary {c : Char} (hc : c = ' ' ∨ c = ';') {text rest : List Char} {tokens others : List Token}
    (h : lex text = some tokens) (h' : lex (c :: rest) = some others) :
    lex (text ++ c :: rest) = some (tokens ++ others) := by
  rw [lex, lexFrom_boundary hc, h', show lexFrom [] text = some tokens from h]
  rfl

namespace Reader

/-- The parser with a command in front. -/
def after (first : Program) (reader : Reader) : Reader :=
  { reader with outermost := ⟨first :: reader.outermost.done, reader.outermost.chain⟩ }

variable {first : Program} {reader : Reader}

theorem endPart_after {finish : Level → Program → Level}
    (hfinish : ∀ level last, finish ⟨first :: level.done, level.chain⟩ last =
      ⟨first :: (finish level last).done, (finish level last).chain⟩) :
    (reader.after first).endPart finish = (reader.endPart finish).map (after first) := by
  obtain ⟨outermost, inner, part⟩ := reader
  cases hpart : part.program? <;> cases inner <;> simp [endPart, after, hpart, hfinish]

theorem word_after (text : Word) : (reader.after first).word text = (reader.word text).map (after first) := by
  obtain ⟨outermost, inner, part⟩ := reader
  cases part with
  | begun words => rfl
  | closed body => rfl
  | empty =>
    unfold word
    dsimp only [after]
    by_cases hopen : text = openBrace
    · rw [if_pos hopen, if_pos hopen]
      rfl
    rw [if_neg hopen, if_neg hopen]
    by_cases hclose : text = closeBrace
    · rw [if_pos hclose, if_pos hclose]
      split <;> rfl
    · rw [if_neg hclose, if_neg hclose]
      split <;> rfl

theorem step_after (token : Token) : (reader.after first).step token = (reader.step token).map (after first) := by
  cases token with
  | word text => exact word_after text
  | andIf => exact endPart_after fun _ _ => rfl
  | orIf => exact endPart_after fun _ _ => rfl
  | semi => exact endPart_after fun level last => by simp [Level.close, Level.joined]

theorem foldlM_after (tokens : List Token) :
    tokens.foldlM step (reader.after first) = (tokens.foldlM step reader).map (after first) := by
  induction tokens generalizing reader with
  | nil => rfl
  | cons token tokens ih =>
    rw [List.foldlM_cons, List.foldlM_cons, step_after]
    cases reader.step token with
    | none => rfl
    | some next => exact ih

theorem finish_after : (reader.after first).finish = reader.finish.map (first :: ·) := by
  obtain ⟨⟨done, chain⟩, inner, part⟩ := reader
  cases hpart : part.program? <;> cases inner <;> cases chain <;>
    simp [finish, after, hpart, Level.close, Level.joined]

end Reader

theorem lex_blank (text : List Char) : lex (' ' :: text) = lex text := by
  show lexFrom [] (' ' :: text) = _
  rw [lexFrom_cons [] (by simp) (by simp), if_pos rfl]
  exact congrFun Option.map_id _

/-- A text that reads as one command and ends with a `;`, and the text of a list. -/
theorem parse_after {text rest : List Char} {tokens : List Token} {first : Program} (hlex : lex text = some tokens)
    (hfirst : tokens.foldlM Reader.step Reader.start = some ⟨⟨[first], none⟩, [], .empty⟩) :
    parse (text ++ ' ' :: rest) = (parse rest).map (first :: ·) := by
  have hafter : (⟨⟨[first], none⟩, [], .empty⟩ : Reader) = Reader.start.after first := rfl
  unfold parse
  rw [lex, lexFrom_boundary (.inl rfl), show lexFrom [] text = some tokens from hlex, lex_blank]
  cases hrest : lex rest with
  | none => rfl
  | some others =>
    show ((tokens ++ others).foldlM Reader.step Reader.start).bind Reader.finish = _
    rw [List.foldlM_append, hfirst, hafter]
    show ((others.foldlM Reader.step (Reader.start.after first)).bind Reader.finish) = _
    rw [Reader.foldlM_after]
    show _ = ((others.foldlM Reader.step Reader.start).bind Reader.finish).map (first :: ·)
    cases others.foldlM Reader.step Reader.start with
    | none => rfl
    | some reader => exact Reader.finish_after

/-! ## Chains -/

/-- A simple command can begin with its first word. -/
def isSimple : List Word → Bool
  | [] => false
  | name :: _ => name ≠ openBrace && name ≠ closeBrace && !reserved.any (· == name)

/-- Simple commands joined by `&&` to what is before them. -/
def chained (left : Program) (commands : List (List Word)) : Program :=
  commands.foldl (fun left words => .and left (.simple words)) left

def chainTokens : List Word → List (List Word) → List Token
  | words, [] => words.map .word
  | words, next :: commands => words.map .word ++ .andIf :: chainTokens next commands

/-- The words of a text between blanks. -/
theorem lex_words {words : List Word} (h : ∀ word ∈ words, word ≠ [] ∧ word.all isPlain = true) :
    lex ([' '].intercalate words) = some (words.map .word) := by
  have hplain (word rest : Word) (hrest : rest.all isPlain = true) :
      lexFrom word rest = some (flush (word ++ rest)) := by
    induction rest generalizing word with
    | nil => rw [List.append_nil, lexFrom]
    | cons c rest ih =>
      obtain ⟨hc, hrest⟩ := Bool.and_eq_true_iff.mp hrest
      have hnot (d : Char) (hd : isPlain d = false) : c ≠ d := fun heq => by rw [heq, hd] at hc; cases hc
      rw [lexFrom_cons word (fun _ heq => absurd heq (hnot _ (by decide)))
        (fun _ heq => absurd heq (hnot _ (by decide))),
        if_neg (hnot _ (by decide)), if_neg (hnot _ (by decide)), if_pos hc, ih _ hrest, List.append_assoc]
      rfl
  have hword (word : Word) (hmem : word ∈ words) : lex word = some [.word word] := by
    rw [lex, hplain [] word (h word hmem).2, List.nil_append, flush, if_neg (h word hmem).1]
  clear hplain h
  induction words with
  | nil => rfl
  | cons word words ih =>
    have ih := ih fun word hmem => hword word (List.mem_cons_of_mem _ hmem)
    cases words with
    | nil => simpa using hword word List.mem_cons_self
    | cons next words =>
      rw [List.intercalate_cons_cons, List.append_assoc]
      exact lex_boundary (.inl rfl) (hword word List.mem_cons_self) ((lex_blank _).trans ih)

/-- Commands that are joined by `&&`. -/
theorem lex_chain {text : List Char} {texts : List (List Char)} {words : List Word} {commands : List (List Word)}
    (h : lex text = some (words.map .word))
    (hcommands : List.Forall₂ (fun text words => lex text = some (words.map .word)) texts commands) :
    lex ([' ', '&', '&', ' '].intercalate (text :: texts)) = some (chainTokens words commands) := by
  induction hcommands generalizing text words with
  | nil => rw [List.intercalate_singleton, h, chainTokens]
  | @cons next words' texts commands hnext _ ih =>
    rw [List.intercalate_cons_cons, List.append_assoc]
    refine lex_boundary (.inl rfl) h ?_
    have hand (rest : List Char) : lex ('&' :: '&' :: rest) = (lex rest).map fun tokens => .andIf :: tokens := rfl
    have hnext := ih hnext
    show lex (' ' :: '&' :: '&' :: ' ' :: [' ', '&', '&', ' '].intercalate (next :: texts)) = _
    rw [lex_blank, hand, lex_blank, hnext]
    rfl

section

variable {outermost level : Level} {inner : List Level} {words : List Word} {commands : List (List Word)}

theorem foldlM_words (h : isSimple words = true) :
    (words.map Token.word).foldlM Reader.step ⟨outermost, inner, .empty⟩ = some ⟨outermost, inner, .begun words⟩ := by
  have hmore (more begun : List Word) : (more.map Token.word).foldlM Reader.step ⟨outermost, inner, .begun begun⟩ =
      some ⟨outermost, inner, .begun (begun ++ more)⟩ := by
    induction more generalizing begun with
    | nil => rw [List.append_nil]; rfl
    | cons word more ih =>
      have happend : begun ++ word :: more = begun ++ [word] ++ more := by simp
      rw [happend, ← ih]
      rfl
  cases words with
  | nil => cases h
  | cons name more =>
    simp only [isSimple, Bool.and_eq_true, decide_eq_true_eq, Bool.not_eq_true'] at h
    have hname : Reader.step ⟨outermost, inner, .empty⟩ (.word name) = some ⟨outermost, inner, .begun [name]⟩ := by
      unfold Reader.step Reader.word
      dsimp only
      rw [if_neg h.1.1, if_neg h.1.2, h.2, if_neg Bool.false_ne_true]
    rw [List.map_cons, List.foldlM_cons, hname]
    exact hmore more [name]

/-- A chain is one command of the list in which it is. -/
theorem foldlM_chain (h : isSimple words = true) (hcommands : ∀ words ∈ commands, isSimple words = true) :
    (chainTokens words commands ++ [Token.semi]).foldlM Reader.step ⟨outermost, level :: inner, .empty⟩ =
      some ⟨outermost, ⟨level.done ++ [chained (level.joined (.simple words)) commands], none⟩ :: inner, .empty⟩ := by
  induction commands generalizing words level with
  | nil =>
    rw [chainTokens, List.foldlM_append, foldlM_words h]
    rfl
  | cons next commands ih =>
    rw [chainTokens, List.append_assoc, List.foldlM_append, foldlM_words h]
    show List.foldlM _ (⟨outermost, level.connect true (.simple words) :: inner, .empty⟩ : Reader) _ = _
    exact ih (hcommands next List.mem_cons_self) fun words hmem => hcommands words (List.mem_cons_of_mem _ hmem)

end

section

variable {exec : List Word → σ → σ × ℕ} {commands : List (List Word)}

/-- It is none of the forms of `exit`. -/
def RunsOn (words : List Word) : Prop := ∀ last, exitStatus last words = none

theorem run_simple {words : List Word} (h : RunsOn words) (last : ℕ) (s : σ) :
    run exec (.simple words) last s = ⟨(exec words s).1, (exec words s).2, false⟩ := by
  rw [run, h last]

/-- A chain runs its commands up to the first that fails. -/
theorem run_chained (h : ∀ words ∈ commands, RunsOn words) (left : Program) (last : ℕ) (s : σ) :
    run exec (chained left commands) last s = (run exec left last s).andThen fun status s =>
      if status = 0 then ⟨(runWhile exec commands s).1, (runWhile exec commands s).2, false⟩ else
        ⟨s, status, false⟩ := by
  induction commands generalizing left with
  | nil =>
    have hnil (outcome : Outcome σ) : outcome = outcome.andThen fun status s =>
        if status = 0 then ⟨(runWhile exec [] s).1, (runWhile exec [] s).2, false⟩ else ⟨s, status, false⟩ := by
      obtain ⟨s, status, exited⟩ := outcome
      cases exited with
      | true => rfl
      | false =>
        by_cases hstatus : status = 0
        · rw [hstatus]
          rfl
        · exact (if_neg hstatus).symm
    exact hnil _
  | cons words commands ih =>
    rw [show chained left (words :: commands) = chained (.and left (.simple words)) commands from rfl,
      ih (fun words hmem => h words (List.mem_cons_of_mem _ hmem)), run]
    obtain ⟨s, status, exited⟩ := run exec left last s
    cases exited with
    | true => rfl
    | false =>
      by_cases hstatus : status = 0
      · simp only [Outcome.andThen, hstatus, if_true, Bool.false_eq_true, if_false,
          run_simple (h words List.mem_cons_self), runWhile]
        by_cases hexec : (exec words s).2 = 0
        · rw [if_pos hexec, if_pos hexec]
        · rw [if_neg hexec, if_neg hexec]
      · simp [Outcome.andThen, hstatus]

end

end Framework.Shell
