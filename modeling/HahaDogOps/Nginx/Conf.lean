import HahaDogOps.Lib.Nest
import HahaDogOps.Lib.Run
import HahaDogOps.Shell.Read
/-!
# How nginx reads its configuration (`nginx-1.11.6/src/core/ngx_conf_file.c`)

| here | there |
| --- | --- |
| `Token`      | what `ngx_conf_read_token` returns: `NGX_OK`, `NGX_CONF_BLOCK_START`, `NGX_CONF_BLOCK_DONE`, with `cf->args` |
| `Lexer`      | `cf->args`, the word that began at `start`, and the flags of `:513-520` |
| `readToken`  | one round of the loop of `ngx_conf_read_token` (`:530-808`) |
| `readTokens` | call after call of it, on a whole text |
| `confParse`  | `ngx_conf_parse` (`:241-323`) without the handlers: the blocks are closed in order |

A word may be as long as it likes: the limit of `NGX_CONF_BUFFER` bytes is not modelled. What a directive
means, and whether nginx knows it, is up to the handlers and plays no part here.
-/

namespace HahaDog.Nginx

inductive Token where
  | ok (args : List Text)
  | blockStart (args : List Text)
  | blockDone
deriving DecidableEq, Repr

/-- `s_quoted`, `d_quoted`, or neither. -/
inductive Quote where
  | plain
  | single
  | double
deriving DecidableEq, Repr

/-- The flags: `last_space`, `sharp_comment`, `need_space`, or inside a word with `variable` (`dollar` here) and `quoted`.
After an error nothing is read. -/
inductive Mode where
  | lastSpace
  | sharpComment
  | needSpace
  | word (q : Quote) (dollar quoted : Bool)
  | error
deriving DecidableEq, Repr

structure Lexer where
  args : List Text
  word : Text
  mode : Mode
deriving DecidableEq, Repr

/-- The state in which every call of `ngx_conf_read_token` begins. -/
def Lexer.init : Lexer := ⟨[], [], .lastSpace⟩

def fail : Lexer × List Token := (⟨[], [], .error⟩, [])

/-- A token is complete: the next call begins. -/
def emit (t : Token) : Lexer × List Token := (.init, [t])

def isSpace (c : Char) : Bool := c == ' ' || c == '\t' || c == '\r' || c == '\n'

/-- The copy of a word into `cf->args` (`:764-795`). -/
def unescape : Text → Text
  | '\\' :: c :: t =>
    if c = '\x22' ∨ c = '\x27' ∨ c = '\\' then c :: unescape t
    else if c = 't' then '\t' :: unescape t
    else if c = 'r' then '\r' :: unescape t
    else if c = 'n' then '\n' :: unescape t
    else '\\' :: c :: unescape t
  | c :: t => c :: unescape t
  | [] => []

/-- `:657-713`: no word has begun. -/
def readSpace (args : List Text) (c : Char) : Lexer × List Token :=
  if isSpace c then (⟨args, [], .lastSpace⟩, [])
  else if c = ';' then (if args = [] then fail else emit (.ok args))
  else if c = '{' then (if args = [] then fail else emit (.blockStart args))
  else if c = '}' then (if args = [] then emit .blockDone else fail)
  else if c = '#' then (⟨args, [], .sharpComment⟩, [])
  else if c = '\\' then (⟨args, [c], .word .plain false true⟩, [])
  else if c = '\x22' then (⟨args, [], .word .double false false⟩, [])
  else if c = '\x27' then (⟨args, [], .word .single false false⟩, [])
  else (⟨args, [c], .word .plain false false⟩, [])

/-- `:716-807`: inside a word. -/
def readWord (args : List Text) (word : Text) (q : Quote) (dollar : Bool) (c : Char) : Lexer × List Token :=
  if c = '{' ∧ dollar = true then (⟨args, word ++ [c], .word q true false⟩, [])
  else if c = '\\' then (⟨args, word ++ [c], .word q false true⟩, [])
  else if c = '$' then (⟨args, word ++ [c], .word q true false⟩, [])
  else match q with
    | .double =>
      if c = '\x22' then (⟨args ++ [unescape word], [], .needSpace⟩, [])
      else (⟨args, word ++ [c], .word q false false⟩, [])
    | .single =>
      if c = '\x27' then (⟨args ++ [unescape word], [], .needSpace⟩, [])
      else (⟨args, word ++ [c], .word q false false⟩, [])
    | .plain =>
      if isSpace c then (⟨args ++ [unescape word], [], .lastSpace⟩, [])
      else if c = ';' then emit (.ok (args ++ [unescape word]))
      else if c = '{' then emit (.blockStart (args ++ [unescape word]))
      else (⟨args, word ++ [c], .word q false false⟩, [])

def readToken (s : Lexer) (c : Char) : Lexer × List Token :=
  match s.mode with
  | .error => fail
  | .sharpComment => if c = '\n' then (⟨s.args, [], .lastSpace⟩, []) else (⟨s.args, [], .sharpComment⟩, [])
  | .needSpace =>
    if isSpace c then (⟨s.args, [], .lastSpace⟩, [])
    else if c = ';' then emit (.ok s.args)
    else if c = '{' then emit (.blockStart s.args)
    else if c = ')' then readSpace s.args c
    else fail
  | .lastSpace => readSpace s.args c
  | .word q v true => (⟨s.args, s.word ++ [c], .word q v false⟩, [])
  | .word q v false => readWord s.args s.word q v c

def readTokens (s : Lexer) (t : Text) : Lexer × List Token := Run.feed readToken s t

/-- A block is called after the arguments it was opened with. -/
def shape : Token → Nest.Shape (List Text)
  | .ok _ => .inner
  | .blockStart args => .opens args
  | .blockDone => .closes

/-- The file may end here (`:532-552`). -/
def Lexer.Done (s : Lexer) : Prop := s.args = [] ∧ (s.mode = .lastSpace ∨ s.mode = .sharpComment)

instance (s : Lexer) : Decidable s.Done := inferInstanceAs (Decidable (_ = _ ∧ (_ = _ ∨ _ = _)))

/-- The tokens of a text in which every directive is complete and every block closed. -/
def confParse (t : Text) : Option (List Token) :=
  let r := readTokens .init t
  if r.1.Done ∧ Nest.nest shape [] r.2 = some [] then some r.2 else none

theorem confParse_eq_some {t : Text} {ts : List Token} : confParse t = some ts ↔
    (readTokens .init t).1.Done ∧ (readTokens .init t).2 = ts ∧ Nest.nest shape [] ts = some [] := by
  simp only [confParse]
  split
  · rename_i h
    rw [Option.some.injEq]
    constructor
    · rintro rfl
      exact ⟨h.1, rfl, h.2⟩
    · exact fun h' => h'.2.1
  · rename_i h
    refine iff_of_false (by simp) ?_
    rintro ⟨hd, rfl, hnest⟩
    exact h ⟨hd, hnest⟩

/-- Every block with what stands directly in it; the whole file is the block without arguments. -/
def blocks (ts : List Token) : List (List Text × List Token) := Nest.blocks shape [([], [])] (ts ++ [.blockDone])

/-! ## Reading plain text -/

/-- A character that means nothing to the lexer. -/
def isPlain (c : Char) : Bool :=
  !isSpace c && c != ';' && c != '{' && c != '}' && c != '#' && c != '\\' && c != '\x22' && c != '\x27' && c != '$'

theorem readTokens_nil (s : Lexer) : readTokens s [] = (s, []) := rfl

theorem readTokens_cons (s : Lexer) (c : Char) (t : Text) : readTokens s (c :: t) =
    ((readTokens (readToken s c).1 t).1, (readToken s c).2 ++ (readTokens (readToken s c).1 t).2) := rfl

theorem readTokens_append (s : Lexer) (t u : Text) : readTokens s (t ++ u) =
    ((readTokens (readTokens s t).1 u).1, (readTokens s t).2 ++ (readTokens (readTokens s t).1 u).2) :=
  Run.feed_append readToken t u s

theorem unescape_of_no_backslash : ∀ {w : Text}, '\\' ∉ w → unescape w = w
  | [], _ => rfl
  | c :: w, h => by
    simp only [List.mem_cons, not_or] at h
    rw [unescape.eq_2 c w fun d t hc _ => h.1 hc.symm, unescape_of_no_backslash h.2]

theorem isPlain_iff {c : Char} : isPlain c = true ↔ isSpace c = false ∧ c ≠ ';' ∧ c ≠ '{' ∧ c ≠ '}' ∧ c ≠ '#' ∧
    c ≠ '\\' ∧ c ≠ '\x22' ∧ c ≠ '\x27' ∧ c ≠ '$' := by
  simp [isPlain, and_assoc]

theorem readToken_plain_first (args : List Text) {c : Char} (h : isPlain c = true) :
    readToken ⟨args, [], .lastSpace⟩ c = (⟨args, [c], .word .plain false false⟩, []) := by
  obtain ⟨h0, h1, h2, h3, h4, h5, h6, h7, -⟩ := isPlain_iff.1 h
  simp [readToken, readSpace, h0, h1, h2, h3, h4, h5, h6, h7]

theorem readToken_plain_next (args : List Text) (w : Text) {c : Char} (h : isPlain c = true) :
    readToken ⟨args, w, .word .plain false false⟩ c = (⟨args, w ++ [c], .word .plain false false⟩, []) := by
  obtain ⟨h0, h1, h2, -, -, h5, -, -, h8⟩ := isPlain_iff.1 h
  simp [readToken, readWord, h0, h1, h2, h5, h8]

/-- A word of plain characters. -/
@[mk_iff] structure PlainWord (w : Text) : Prop where
  ne : w ≠ []
  plain : ∀ c ∈ w, isPlain c = true

instance (w : Text) : Decidable (PlainWord w) := decidable_of_iff _ (plainWord_iff w).symm

theorem PlainWord.unescape {w : Text} (h : PlainWord w) : unescape w = w :=
  unescape_of_no_backslash fun hm => absurd (h.plain _ hm) (by decide)

theorem readTokens_plain_next (args : List Text) : ∀ (v w : Text), (∀ c ∈ v, isPlain c = true) →
    readTokens ⟨args, w, .word .plain false false⟩ v = (⟨args, w ++ v, .word .plain false false⟩, [])
  | [], w, _ => by simp [readTokens_nil]
  | c :: v, w, h => by
    rw [readTokens_cons, readToken_plain_next args w (h c (by simp)),
      readTokens_plain_next args v (w ++ [c]) fun d hd => h d (by simp [hd])]
    simp

theorem PlainWord.readTokens {w : Text} (h : PlainWord w) (args : List Text) :
    readTokens ⟨args, [], .lastSpace⟩ w = (⟨args, w, .word .plain false false⟩, []) := by
  cases w with
  | nil => exact absurd rfl h.ne
  | cons c w =>
    rw [readTokens_cons, readToken_plain_first args (h.plain c (by simp)),
      readTokens_plain_next args w [c] fun d hd => h.plain d (by simp [hd])]
    rfl

theorem PlainWord.readTokens_space {w : Text} (h : PlainWord w) (args : List Text) (t : Text) :
    Nginx.readTokens ⟨args, [], .lastSpace⟩ (w ++ ' ' :: t) = Nginx.readTokens ⟨args ++ [w], [], .lastSpace⟩ t := by
  rw [readTokens_append, h.readTokens, readTokens_cons]
  simp [readToken, readWord, isSpace, h.unescape]

theorem PlainWord.readTokens_ok {w : Text} (h : PlainWord w) (args : List Text) :
    Nginx.readTokens ⟨args, [], .lastSpace⟩ (w ++ [';', '\n']) = (.init, [.ok (args ++ [w])]) := by
  rw [readTokens_append, h.readTokens, readTokens_cons]
  simp [readToken, readWord, isSpace, h.unescape, emit, Lexer.init, readTokens_cons, readTokens_nil, readSpace]

theorem readTokens_blockStart {args : List Text} (h : args ≠ []) :
    readTokens ⟨args, [], .lastSpace⟩ ['{', '\n'] = (.init, [.blockStart args]) := by
  simp [readToken, isSpace, emit, Lexer.init, readTokens_cons, readTokens_nil, readSpace, h]

/-! ## What one character does -/

def Token.args : Token → List Text
  | .ok args => args
  | .blockStart args => args
  | .blockDone => []

/-- The word goes on or is dropped, the word is complete, a token is complete, or there is an error. -/
inductive Step (s : Lexer) (c : Char) : Lexer × List Token → Prop
  | go {w m} : w = [] ∨ w = [c] ∨ w = s.word ++ [c] → Step s c (⟨s.args, w, m⟩, [])
  | word {m} : Step s c (⟨s.args ++ [unescape s.word], [], m⟩, [])
  | emit {t : Token} : t.args = [] ∨ t.args = s.args ∨ t.args = s.args ++ [unescape s.word] → Step s c (emit t)
  | fail : Step s c fail

theorem readSpace_step (s : Lexer) (c : Char) : Step s c (readSpace s.args c) := by
  unfold readSpace
  split_ifs
  · exact .go (.inl rfl)
  · exact .fail
  · exact .emit (.inr (.inl rfl))
  · exact .fail
  · exact .emit (.inr (.inl rfl))
  · exact .emit (.inl rfl)
  · exact .fail
  · exact .go (.inl rfl)
  · exact .go (.inr (.inl rfl))
  · exact .go (.inl rfl)
  · exact .go (.inl rfl)
  · exact .go (.inr (.inl rfl))

theorem readWord_step (s : Lexer) (q : Quote) (v : Bool) (c : Char) : Step s c (readWord s.args s.word q v c) := by
  have hgo : ∀ m, Step s c (⟨s.args, s.word ++ [c], m⟩, []) := fun m => .go (.inr (.inr rfl))
  cases q with
  | double =>
    simp only [readWord]
    split_ifs
    exacts [hgo _, hgo _, hgo _, .word, hgo _]
  | single =>
    simp only [readWord]
    split_ifs
    exacts [hgo _, hgo _, hgo _, .word, hgo _]
  | plain =>
    simp only [readWord]
    split_ifs
    · exact hgo _
    · exact hgo _
    · exact hgo _
    · exact .word
    · exact .emit (.inr (.inr rfl))
    · exact .emit (.inr (.inr rfl))
    · exact hgo _

theorem readToken_step (s : Lexer) (c : Char) : Step s c (readToken s c) := by
  unfold readToken
  split
  · exact .fail
  · split_ifs <;> exact .go (.inl rfl)
  · split_ifs
    · exact .go (.inl rfl)
    · exact .emit (.inr (.inl rfl))
    · exact .emit (.inr (.inl rfl))
    · exact readSpace_step s c
    · exact .fail
  · exact readSpace_step s c
  · exact .go (.inr (.inr rfl))
  · exact readWord_step s _ _ c

/-! ## A word that does not stand in the text -/

/-- No argument so far is `pat`, and the word begun is not either: it holds a newline, or it is all on the
part `u` of the line that has been read. -/
structure Avoids (pat u : Text) (s : Lexer) : Prop where
  args : pat ∉ s.args
  noBackslash : '\\' ∉ s.word
  word : '\n' ∈ s.word ∨ s.word <:+ u

section
variable {pat : Text} (hp : '\n' ∉ pat)

include hp

theorem Avoids.unescape_ne {u : Text} {s : Lexer} (h : Avoids pat u s) (hu : ¬ pat <:+: u) :
    unescape s.word ≠ pat := by
  rw [unescape_of_no_backslash h.noBackslash]
  rintro rfl
  exact h.word.elim hp fun hs => hu hs.isInfix

theorem Avoids.readToken {u : Text} {s : Lexer} (h : Avoids pat u s) {c : Char} (hc : c ≠ '\\')
    (hu : ¬ pat <:+: u) :
    Avoids pat (u ++ [c]) (readToken s c).1 ∧ ∀ t ∈ (readToken s c).2, pat ∉ t.args := by
  have hfinished : pat ∉ s.args ++ [unescape s.word] := by
    simpa using ⟨h.args, (h.unescape_ne hp hu).symm⟩
  generalize hr : Nginx.readToken s c = r
  have hstep := readToken_step s c
  rw [hr] at hstep
  cases hstep with
  | @go w m hw =>
    refine ⟨⟨h.args, ?_, ?_⟩, by simp⟩
    · rcases hw with rfl | rfl | rfl
      · simp
      · simpa using hc.symm
      · simpa using ⟨h.noBackslash, hc.symm⟩
    · rcases hw with rfl | rfl | rfl
      · exact .inr List.nil_suffix
      · exact .inr (List.suffix_append u [c])
      · rcases h.word with hn | hs
        · exact .inl (List.mem_append_left _ hn)
        · exact .inr ((List.suffix_append_self_iff).2 hs)
  | word => exact ⟨⟨hfinished, by simp, .inr List.nil_suffix⟩, by simp⟩
  | emit ht =>
    refine ⟨⟨by simp [Nginx.emit, Lexer.init], by simp [Nginx.emit, Lexer.init], .inr List.nil_suffix⟩, ?_⟩
    rintro t' ht'
    rw [List.mem_singleton.1 ht']
    rcases ht with ht | ht | ht
    · simp [ht]
    · rw [ht]; exact h.args
    · rw [ht]; exact hfinished
  | fail => exact ⟨⟨by simp [Nginx.fail], by simp [Nginx.fail], .inr List.nil_suffix⟩, by simp [Nginx.fail]⟩

theorem Avoids.readTokens : ∀ (v u : Text) {s : Lexer}, Avoids pat u s → '\\' ∉ v → ¬ pat <:+: u ++ v →
    Avoids pat (u ++ v) (readTokens s v).1 ∧ ∀ t ∈ (readTokens s v).2, pat ∉ t.args
  | [], u, s, h, _, _ => by simpa [readTokens_nil] using h
  | c :: v, u, s, h, hb, hu => by
    simp only [List.mem_cons, not_or] at hb
    have hu' : ¬ pat <:+: u := fun hi => hu (hi.trans (List.prefix_append _ _).isInfix)
    obtain ⟨hs, ht⟩ := h.readToken hp (Ne.symm hb.1) hu'
    have happ : u ++ [c] ++ v = u ++ c :: v := by simp
    obtain ⟨hs', ht'⟩ := Avoids.readTokens v (u ++ [c]) hs hb.2 (happ ▸ hu)
    rw [happ] at hs'
    refine ⟨hs', fun t hmem => ?_⟩
    rcases List.mem_append.1 hmem with hmem | hmem
    · exact ht t hmem
    · exact ht' t hmem

/-- Line by line: a line without `pat` brings no argument `pat`. -/
theorem Avoids.readLine {s : Lexer} (h : Avoids pat [] s) {l : Text} (hb : '\\' ∉ l) (hl : ¬ pat <:+: l) :
    Avoids pat [] (Nginx.readTokens s (l ++ ['\n'])).1 ∧ ∀ t ∈ (Nginx.readTokens s (l ++ ['\n'])).2, pat ∉ t.args := by
  obtain ⟨hs, ht⟩ := h.readTokens hp l [] hb hl
  rw [List.nil_append] at hs
  obtain ⟨hs', ht'⟩ := hs.readToken hp (c := '\n') (by decide) hl
  rw [readTokens_append, readTokens_cons, readTokens_nil]
  refine ⟨⟨hs'.args, hs'.noBackslash, ?_⟩, fun t hmem => ?_⟩
  · -- behind a newline the word is new, or the newline belongs to it
    generalize hr : Nginx.readToken (Nginx.readTokens s l).1 '\n' = r
    have hstep := readToken_step (Nginx.readTokens s l).1 '\n'
    rw [hr] at hstep
    cases hstep with
    | go hw => rcases hw with rfl | rfl | rfl <;> simp
    | word => exact .inr List.nil_suffix
    | emit _ => exact .inr List.nil_suffix
    | fail => exact .inr List.nil_suffix
  · rw [List.append_nil] at hmem
    rcases List.mem_append.1 hmem with hmem | hmem
    · exact ht t hmem
    · exact ht' t hmem

end

/-! ## Blanks around a line -/

theorem isSpace_of_isBlank {c : Char} (h : isBlank c = true) : isSpace c = true := by
  simp only [isBlank, Bool.or_eq_true, beq_iff_eq] at h
  rcases h with rfl | rfl <;> rfl

/-- Blanks are skipped where a line begins between two directives. -/
theorem readTokens_blanks : ∀ {a : Text}, (∀ c ∈ a, isBlank c = true) → ∀ t,
    readTokens .init (a ++ t) = readTokens .init t
  | [], _, _ => rfl
  | c :: a, h, t => by
    have hc : readToken .init c = (.init, []) := by
      simp [readToken, Lexer.init, readSpace, isSpace_of_isBlank (h c (by simp))]
    rw [List.cons_append, readTokens_cons, hc, readTokens_blanks (fun d hd => h d (by simp [hd])) t]
    rfl

/-- A directive or a word has begun, or there was an error. -/
def Unfinished (s : Lexer) : Prop := s.args ≠ [] ∨ s.mode = .error ∨ ∃ q v e, s.mode = .word q v e

theorem not_unfinished_init : ¬ Unfinished .init := by simp [Unfinished, Lexer.init]

theorem isSpace_iff {c : Char} : isSpace c = true ↔ c = ' ' ∨ c = '\t' ∨ c = '\r' ∨ c = '\n' := by
  simp [isSpace, or_assoc]

/-- White space does not finish a directive. -/
theorem Unfinished.readToken {s : Lexer} (h : Unfinished s) {c : Char} (hc : isSpace c = true) :
    Unfinished (readToken s c).1 := by
  rcases s with ⟨args, word, mode⟩
  have hargs : (∀ q v e, mode ≠ .word q v e) → mode ≠ .error → args ≠ [] := fun hw he =>
    h.elim id fun h' => (h'.elim he fun ⟨q, v, e, hm⟩ => hw q v e hm).elim
  cases mode with
  | lastSpace => exact .inl (by simpa [Nginx.readToken, readSpace, hc] using hargs (by simp) (by simp))
  | sharpComment =>
    refine .inl ?_
    simp only [Nginx.readToken]
    split_ifs <;> exact hargs (by simp) (by simp)
  | needSpace => exact .inl (by simpa [Nginx.readToken, hc] using hargs (by simp) (by simp))
  | error => exact .inr (.inl rfl)
  | word q v e =>
    cases e with
    | true => exact .inr (.inr ⟨q, v, false, rfl⟩)
    | false =>
      -- inside quotes white space belongs to the word, elsewhere it ends the word
      rcases isSpace_iff.1 hc with rfl | rfl | rfl | rfl <;> cases q <;>
        simp [Unfinished, Nginx.readToken, readWord, isSpace]

theorem Unfinished.readTokens : ∀ {t : Text}, (∀ c ∈ t, isSpace c = true) → ∀ {s : Lexer}, Unfinished s →
    Unfinished (readTokens s t).1
  | [], _, _, h => h
  | c :: t, ht, s, h => by
    rw [readTokens_cons]
    exact Unfinished.readTokens (fun d hd => ht d (by simp [hd])) (h.readToken (ht c (by simp)))

/-- Where nothing has begun white space is skipped, and a newline ends a comment. -/
theorem readToken_settled {s : Lexer} (h : ¬ Unfinished s) {c : Char} (hc : isSpace c = true) :
    ∃ s', readToken s c = (s', []) ∧ ¬ Unfinished s' ∧ (c = '\n' → s' = .init) := by
  rcases s with ⟨args, word, mode⟩
  simp only [Unfinished, not_or, not_exists, Classical.not_not] at h
  obtain ⟨rfl, herr, hword⟩ := h
  have hinit : ¬ Unfinished ⟨[], [], .lastSpace⟩ := not_unfinished_init
  cases mode with
  | lastSpace => exact ⟨_, by simp [readToken, readSpace, hc], hinit, fun _ => rfl⟩
  | sharpComment =>
    by_cases hn : c = '\n'
    · exact ⟨_, by simp [readToken, hn], hinit, fun _ => rfl⟩
    · exact ⟨⟨[], [], .sharpComment⟩, by simp [readToken, hn], by simp [Unfinished], fun h' => absurd h' hn⟩
  | needSpace => exact ⟨_, by simp [readToken, hc], hinit, fun _ => rfl⟩
  | error => exact absurd rfl herr
  | word q v e => exact absurd rfl (hword q v e)

theorem readTokens_settled : ∀ {b : Text}, (∀ c ∈ b, isBlank c = true) → ∀ {s : Lexer}, ¬ Unfinished s →
    readTokens s (b ++ ['\n']) = (.init, [])
  | [], _, s, h => by
    obtain ⟨s', hr, -, hn⟩ := readToken_settled h (c := '\n') rfl
    rw [List.nil_append, readTokens_cons, hr, hn rfl]
    rfl
  | c :: b, hb, s, h => by
    obtain ⟨s', hr, hs', -⟩ := readToken_settled h (isSpace_of_isBlank (hb c (by simp)))
    rw [List.cons_append, readTokens_cons, hr, readTokens_settled (fun d hd => hb d (by simp [hd])) hs']
    rfl

theorem isSpace_blanks_newline {b : Text} (hb : ∀ c ∈ b, isBlank c = true) : ∀ c ∈ b ++ ['\n'], isSpace c = true := by
  intro c hc
  rcases List.mem_append.1 hc with hc | hc
  · exact isSpace_of_isBlank (hb c hc)
  · rw [List.mem_singleton.1 hc]; rfl

/-- A line that begins between two directives may lose its leading blanks. -/
theorem readTokens_line (l : Text) : ∃ b, (∀ c ∈ b, isBlank c = true) ∧
    readTokens .init (l ++ ['\n']) = readTokens .init (stripBlanks l ++ (b ++ ['\n'])) := by
  obtain ⟨a, b, hl, ha, hb, -⟩ := Lines.strip_spec isBlank l
  refine ⟨b, hb, ?_⟩
  conv => lhs; rw [hl, List.append_assoc, List.append_assoc, readTokens_blanks ha]
  rfl

/-- **A line that finishes what it begins** is read the same without the blanks around it. -/
theorem readTokens_stripBlanks {l : Text} (h : (readTokens .init (l ++ ['\n'])).1 = .init) :
    readTokens .init (stripBlanks l ++ ['\n']) = readTokens .init (l ++ ['\n']) := by
  obtain ⟨b, hb, hread⟩ := readTokens_line l
  rw [hread, readTokens_append] at h ⊢
  have hs : ¬ Unfinished (readTokens .init (stripBlanks l)).1 := fun hu =>
    not_unfinished_init (h ▸ hu.readTokens (isSpace_blanks_newline hb))
  have hnil := readTokens_settled (b := []) (by simp) hs
  rw [readTokens_append, readTokens_settled hb hs, ← List.nil_append ['\n'], hnil]

/-- A plain word alone on its line begins a directive. -/
theorem PlainWord.readLine_ne_init {l : Text} (h : PlainWord (stripBlanks l)) :
    (Nginx.readTokens .init (l ++ ['\n'])).1 ≠ .init := by
  obtain ⟨b, hb, hread⟩ := readTokens_line l
  have hu : Unfinished (Nginx.readTokens .init (stripBlanks l)).1 := by
    rw [Lexer.init, h.readTokens]
    exact .inr (.inr ⟨_, _, _, rfl⟩)
  intro hinit
  rw [hread, readTokens_append] at hinit
  exact not_unfinished_init (hinit ▸ hu.readTokens (isSpace_blanks_newline hb))

end HahaDog.Nginx
