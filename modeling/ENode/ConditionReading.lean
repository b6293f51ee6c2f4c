import Mathlib

/-! Reading a condition back from its text and its bound arguments. A condition compares a column
with a placeholder or puts conditions together; NOT binds tighter than AND and AND tighter than OR. -/
namespace ENode.ConditionReading
open List

inductive Token where
  | opening
  | closing
  | conj
  | disj
  | neg
  | word (text : List Char)
  deriving DecidableEq

def flush (word : List Char) : List Token :=
  if word = [] then []
  else if word = ['A','N','D'] then [.conj]
  else if word = ['O','R'] then [.disj]
  else if word = ['N','O','T'] then [.neg]
  else [.word word]

/-- The tokens of a text, with the characters of a word begun. -/
def lexFrom : List Char → List Char → List Token
  | cur, [] => flush cur
  | cur, c :: s =>
    if c = ' ' then flush cur ++ lexFrom [] s
    else if c = '(' then flush cur ++ .opening :: lexFrom [] s
    else if c = ')' then flush cur ++ .closing :: lexFrom [] s
    else lexFrom (cur ++ [c]) s

def lex (s : List Char) : List Token := lexFrom [] s

section
variable (test : List Char → List Char → α → Bool)

mutual

def readOr : Nat → List Token → List α → Option (Bool × List Token × List α)
  | 0, _, _ => none
  | fuel+1, tokens, args =>
    match readAnd fuel tokens args with
    | none => none
    | some (a,.disj :: rest,more) =>
      match readOr fuel rest more with
      | none => none
      | some (b,rest,more) => some (a || b,rest,more)
    | some (a,rest,more) => some (a,rest,more)

def readAnd : Nat → List Token → List α → Option (Bool × List Token × List α)
  | 0, _, _ => none
  | fuel+1, tokens, args =>
    match readNot fuel tokens args with
    | none => none
    | some (a,.conj :: rest,more) =>
      match readAnd fuel rest more with
      | none => none
      | some (b,rest,more) => some (a && b,rest,more)
    | some (a,rest,more) => some (a,rest,more)

/-- A comparison takes the next argument for its placeholder. -/
def readNot : Nat → List Token → List α → Option (Bool × List Token × List α)
  | 0, _, _ => none
  | fuel+1, tokens, args =>
    match tokens, args with
    | .neg :: rest, args =>
      match readNot fuel rest args with
      | none => none
      | some (a,rest,more) => some (!a,rest,more)
    | .opening :: rest, args =>
      match readOr fuel rest args with
      | some (a,.closing :: rest,more) => some (a,rest,more)
      | _ => none
    | .word column :: .word op :: .word ['?'] :: rest, arg :: more => some (test column op arg,rest,more)
    | _, _ => none

end

/-- The truth of a whole condition, which has to take every argument. -/
def read (tokens : List Token) (args : List α) : Option Bool :=
  match readOr test (3 * tokens.length + 3) tokens args with
  | some (a,[],[]) => some a
  | _ => none

end

/-- Conditions as they are written, with brackets around whatever is put together. -/
inductive Condition (α : Type) where
  | compare (column op : List Char) (arg : α)
  | and (left right : Condition α)
  | or (left right : Condition α)
  | not (inner : Condition α)

namespace Condition

def tokens : Condition α → List Token
  | compare column op _ => [.word column,.word op,.word ['?']]
  | and left right => .opening :: (left.tokens ++ .conj :: (right.tokens ++ [.closing]))
  | or left right => .opening :: (left.tokens ++ .disj :: (right.tokens ++ [.closing]))
  | not inner => .neg :: .opening :: (inner.tokens ++ [.closing])

def args : Condition α → List α
  | compare _ _ arg => [arg]
  | and left right | or left right => left.args ++ right.args
  | not inner => inner.args

def text : Condition α → List Char
  | compare column op _ => column ++ ' ' :: (op ++ [' ','?'])
  | and left right => '(' :: (left.text ++ [' ','A','N','D',' '] ++ right.text ++ [')'])
  | or left right => '(' :: (left.text ++ [' ','O','R',' '] ++ right.text ++ [')'])
  | not inner => ['N','O','T',' ','('] ++ inner.text ++ [')']

def eval (test : List Char → List Char → α → Bool) : Condition α → Bool
  | compare column op arg => test column op arg
  | and left right => left.eval test && right.eval test
  | or left right => left.eval test || right.eval test
  | not inner => !inner.eval test

end Condition

section
variable (test : List Char → List Char → α → Bool)

def OrYields (tokens : List Token) (args : List α) (a : Bool) (rest : List Token) (more : List α) : Prop :=
  ∀ fuel, 3 * tokens.length + 3 ≤ fuel → readOr test fuel tokens args = some (a,rest,more)

def AndYields (tokens : List Token) (args : List α) (a : Bool) (rest : List Token) (more : List α) : Prop :=
  ∀ fuel, 3 * tokens.length + 2 ≤ fuel → readAnd test fuel tokens args = some (a,rest,more)

def NotYields (tokens : List Token) (args : List α) (a : Bool) (rest : List Token) (more : List α) : Prop :=
  ∀ fuel, 3 * tokens.length + 1 ≤ fuel → readNot test fuel tokens args = some (a,rest,more)

variable {test}

theorem NotYields.compare (column op : List Char) (arg : α) (rest : List Token) (more : List α) :
    NotYields test (.word column :: .word op :: .word ['?'] :: rest) (arg :: more) (test column op arg) rest more := by
  intro fuel _
  cases fuel with
  | zero => omega
  | succ _ => rfl

theorem NotYields.neg (inner : NotYields test tokens args a rest more) :
    NotYields test (.neg :: tokens) args (!a) rest more := by
  intro fuel enough
  rw [length_cons] at enough
  cases fuel with
  | zero => omega
  | succ fuel => simp only [readNot,inner fuel (by omega)]

theorem NotYields.group (inner : OrYields test tokens args a (.closing :: rest) more) :
    NotYields test (.opening :: tokens) args a rest more := by
  intro fuel enough
  rw [length_cons] at enough
  cases fuel with
  | zero => omega
  | succ fuel => simp only [readNot,inner fuel (by omega)]

theorem AndYields.single (one : NotYields test tokens args a rest more) (alone : rest.head? ≠ some .conj) :
    AndYields test tokens args a rest more := by
  intro fuel _
  cases fuel with
  | zero => omega
  | succ fuel =>
    rw [readAnd,one fuel (by omega)]
    cases rest with
    | nil => rfl
    | cons t _ =>
      cases t with
      | conj => exact absurd rfl alone
      | opening | closing | disj | neg | word => rfl

theorem AndYields.conj (one : NotYields test tokens args a (.conj :: rest) more) (shorter : rest.length < tokens.length)
    (other : AndYields test rest more b rest' more') : AndYields test tokens args (a && b) rest' more' := by
  intro fuel _
  cases fuel with
  | zero => omega
  | succ fuel =>
    rw [readAnd,one fuel (by omega)]
    simp only [other fuel (by omega)]

theorem OrYields.single (one : AndYields test tokens args a rest more) (alone : rest.head? ≠ some .disj) :
    OrYields test tokens args a rest more := by
  intro fuel _
  cases fuel with
  | zero => omega
  | succ fuel =>
    rw [readOr,one fuel (by omega)]
    cases rest with
    | nil => rfl
    | cons t _ =>
      cases t with
      | disj => exact absurd rfl alone
      | opening | closing | conj | neg | word => rfl

theorem OrYields.disj (one : AndYields test tokens args a (.disj :: rest) more) (shorter : rest.length < tokens.length)
    (other : OrYields test rest more b rest' more') : OrYields test tokens args (a || b) rest' more' := by
  intro fuel _
  cases fuel with
  | zero => omega
  | succ fuel =>
    rw [readOr,one fuel (by omega)]
    simp only [other fuel (by omega)]

namespace Condition

/-- A condition is one operand of whatever it stands in. -/
theorem yields (c : Condition α) (rest : List Token) (more : List α) :
    NotYields test (c.tokens ++ rest) (c.args ++ more) (c.eval test) rest more := by
  induction c generalizing rest more with
  | compare column op arg => exact .compare column op arg rest more
  | and left right ihl ihr =>
    have shape : (and left right).tokens ++ rest =
        .opening :: (left.tokens ++ .conj :: (right.tokens ++ .closing :: rest)) := by simp [tokens]
    rw [shape,args,append_assoc]
    refine .group (.single (.conj (ihl _ _) ?_ (.single (ihr _ _) (by simp))) (by simp))
    simp only [length_append,length_cons]
    omega
  | or left right ihl ihr =>
    have shape : (or left right).tokens ++ rest =
        .opening :: (left.tokens ++ .disj :: (right.tokens ++ .closing :: rest)) := by simp [tokens]
    rw [shape,args,append_assoc]
    refine .group (.disj (.single (ihl _ _) (by simp)) ?_ (.single (.single (ihr _ _) (by simp)) (by simp)))
    simp only [length_append,length_cons]
    omega
  | not inner ih =>
    have shape : (not inner).tokens ++ rest = .neg :: .opening :: (inner.tokens ++ .closing :: rest) := by simp [tokens]
    rw [shape]
    exact .neg (.group (.single (.single (ih _ _) (by simp)) (by simp)))

theorem read_tokens (c : Condition α) : read test c.tokens c.args = some (c.eval test) := by
  have one : NotYields test (c.tokens ++ []) (c.args ++ []) (c.eval test) [] [] := c.yields [] []
  have whole := OrYields.single (.single one (by simp)) (by simp) _ (le_refl _)
  rw [append_nil,append_nil] at whole
  rw [read,whole]

end Condition

end

/-- A word that is no keyword. -/
structure Word (word : List Char) : Prop where
  plain : ∀ c ∈ word, c ∉ [' ','(',')']
  free : flush word = [.word word]

def Delimits (s : List Char) : Prop := s = [] ∨ s.head? = some ' ' ∨ s.head? = some ')'

theorem lexFrom_chars (word cur s : List Char) (plain : ∀ c ∈ word, c ∉ [' ','(',')']) :
    lexFrom cur (word ++ s) = lexFrom (cur ++ word) s := by
  induction word generalizing cur with
  | nil => rw [append_nil,nil_append]
  | cons c _ ih =>
    have here := plain c (.head _)
    simp only [mem_cons,not_mem_nil,or_false,not_or] at here
    rw [cons_append,lexFrom,if_neg here.1,if_neg here.2.1,if_neg here.2.2,
      ih _ (fun d member => plain d (.tail _ member)),append_assoc]
    rfl

theorem lexFrom_space (cur s : List Char) : lexFrom cur (' ' :: s) = flush cur ++ lexFrom [] s := by
  rw [lexFrom,if_pos rfl]

theorem lexFrom_opening (s : List Char) : lexFrom [] ('(' :: s) = .opening :: lexFrom [] s := by
  rw [lexFrom,if_neg (by decide),if_pos rfl]
  rfl

theorem lexFrom_closing (cur s : List Char) : lexFrom cur (')' :: s) = flush cur ++ .closing :: lexFrom [] s := by
  rw [lexFrom,if_neg (by decide),if_neg (by decide),if_pos rfl]

theorem lexFrom_ended (cur : List Char) (ended : Delimits s) : lexFrom cur s = flush cur ++ lexFrom [] s := by
  rcases ended with rfl | ended
  · simp [lexFrom,flush]
  · cases s with
    | nil => simp [lexFrom,flush]
    | cons _ _ =>
      rcases ended with space | closed
      · cases space
        simp [lexFrom_space,flush]
      · cases closed
        simp [lexFrom_closing,flush]

theorem Word.lexed {word : List Char} (isWord : Word word) (ended : Delimits s) :
    lexFrom [] (word ++ s) = .word word :: lexFrom [] s := by
  rw [lexFrom_chars word [] s isWord.plain,nil_append,lexFrom_ended word ended,isWord.free]
  rfl

theorem lexFrom_keyword (word s : List Char) (plain : ∀ c ∈ word, c ∉ [' ','(',')']) :
    lexFrom [] (word ++ ' ' :: s) = flush word ++ lexFrom [] s := by
  rw [lexFrom_chars word [] _ plain,nil_append,lexFrom_space]

namespace Condition

def Spelled : Condition α → Prop
  | compare column op _ => Word column ∧ Word op
  | and left right | or left right => left.Spelled ∧ right.Spelled
  | not inner => inner.Spelled

theorem lexFrom_text (c : Condition α) (spelled : c.Spelled) (ended : Delimits s) :
    lexFrom [] (c.text ++ s) = c.tokens ++ lexFrom [] s := by
  induction c generalizing s with
  | compare column op arg =>
    obtain ⟨isColumn,isOp⟩ := spelled
    have placeholder : Word ['?'] := ⟨by simp,by simp [flush]⟩
    have shape : (compare column op arg).text ++ s = column ++ ' ' :: (op ++ ' ' :: (['?'] ++ s)) := by simp [text]
    rw [shape,isColumn.lexed (.inr (.inl rfl)),lexFrom_space,isOp.lexed (.inr (.inl rfl)),lexFrom_space,
      placeholder.lexed ended]
    simp [flush,tokens]
  | and left right ihl ihr =>
    have shape : (and left right).text ++ s =
        '(' :: (left.text ++ ' ' :: (['A','N','D'] ++ ' ' :: (right.text ++ ')' :: s))) := by simp [text]
    rw [shape,lexFrom_opening,ihl spelled.1 (.inr (.inl rfl)),lexFrom_space,lexFrom_keyword _ _ (by simp),
      ihr spelled.2 (.inr (.inr rfl)),lexFrom_closing]
    simp [flush,tokens]
  | or left right ihl ihr =>
    have shape : (or left right).text ++ s =
        '(' :: (left.text ++ ' ' :: (['O','R'] ++ ' ' :: (right.text ++ ')' :: s))) := by simp [text]
    rw [shape,lexFrom_opening,ihl spelled.1 (.inr (.inl rfl)),lexFrom_space,lexFrom_keyword _ _ (by simp),
      ihr spelled.2 (.inr (.inr rfl)),lexFrom_closing]
    simp [flush,tokens]
  | not inner ih =>
    have shape : (not inner).text ++ s = ['N','O','T'] ++ ' ' :: '(' :: (inner.text ++ ')' :: s) := by simp [text]
    rw [shape,lexFrom_keyword _ _ (by simp),lexFrom_opening,ih spelled (.inr (.inr rfl)),lexFrom_closing]
    simp [flush,tokens]

theorem lex_text (c : Condition α) (spelled : c.Spelled) : lex c.text = c.tokens := by
  have whole := c.lexFrom_text spelled (s := []) (.inl rfl)
  simpa [lex,lexFrom,flush] using whole

end Condition

end ENode.ConditionReading
