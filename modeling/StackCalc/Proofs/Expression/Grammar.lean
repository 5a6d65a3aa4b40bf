import StackCalc.Expression.Compile

/-! The grammar of expressions, and the tree behind each expression. A sum is products with plus or
minus between them, a product is operands with times or over between them, and an operand is a
number, a group in parentheses, or a minus and an operand. Operators of one level associate to the
left. The grammar is unambiguous: no tokens have two trees. -/
namespace StackCalc

inductive Tree where
  | number (t : Token)
  | group (inner : Tree)
  | negate (sign : Token) (operand : Tree)
  | binary (op : BinaryOp) (sign : Token) (left right : Tree)
  deriving DecidableEq

namespace Tree

/-- The most groups and minus signs that any number stands inside of. Neighbours do not add up. -/
def nesting : Tree → Nat
  | .number _ => 0
  | .group inner => inner.nesting + 1
  | .negate _ operand => operand.nesting + 1
  | .binary _ _ left right => max left.nesting right.nesting

def numbers : Tree → List Token
  | .number t => [t]
  | .group inner => inner.numbers
  | .negate _ operand => operand.numbers
  | .binary _ _ left right => left.numbers ++ right.numbers

end Tree

namespace Kind

def additive? : Kind → Option BinaryOp
  | .punctuation .plus => some .add
  | .punctuation .minus => some .subtract
  | _ => none

def multiplicative? : Kind → Option BinaryOp
  | .punctuation .star => some .multiply
  | .punctuation .slash => some .divide
  | _ => none

theorem additive_not_number {kind : Kind} {op : BinaryOp} (sign : kind.additive? = some op) :
    kind ≠ .number := by
  rintro rfl
  cases sign

theorem multiplicative_not_number {kind : Kind} {op : BinaryOp}
    (sign : kind.multiplicative? = some op) : kind ≠ .number := by
  rintro rfl
  cases sign

theorem additive_not_multiplicative {kind : Kind} {op : BinaryOp}
    (sign : kind.additive? = some op) : kind.multiplicative? = none := by
  unfold additive? at sign
  split at sign
  · rfl
  · rfl
  · cases sign

end Kind

/-- An operator with its right operand, as both follow what stands to their left. -/
structure Link where
  sign : Token
  op : BinaryOp
  tokens : List Token
  right : Tree

namespace Link

def spelled (k : Link) : List Token := k.sign :: k.tokens

def join (left : Tree) (k : Link) : Tree := .binary k.op k.sign left k.right

theorem nesting_foldl (links : List Link) (l : Tree) (bound : Nat) :
    (links.foldl join l).nesting ≤ bound ↔
      l.nesting ≤ bound ∧ ∀ k ∈ links, k.right.nesting ≤ bound := by
  induction links generalizing l with
  | nil => simp
  | cons k links ih =>
    simp only [List.foldl_cons, ih, join, Tree.nesting, Nat.max_le, List.forall_mem_cons, and_assoc]

theorem numbers_foldl (links : List Link) (l : Tree) :
    (links.foldl join l).numbers = l.numbers ++ links.flatMap fun k => k.right.numbers := by
  induction links generalizing l with
  | nil => simp
  | cons k links ih => simp [ih, join, Tree.numbers]

end Link

/-- The grammar. A level derives tokens together with their tree: what repeats is a list of links,
and the tree joins them to the first operand one by one. -/
inductive Derives : Level → List Token → Tree → Prop where
  | number {t : Token} : t.kind = .number → Derives .operand [t] (.number t)
  | group {opening closing : Token} {inner : List Token} {e : Tree} :
      opening.kind = .punctuation .leftParen → Derives .sum inner e →
      closing.kind = .punctuation .rightParen →
        Derives .operand (opening :: (inner ++ [closing])) (.group e)
  | negate {sign : Token} {ts : List Token} {e : Tree} :
      sign.kind = .punctuation .minus → Derives .operand ts e →
        Derives .operand (sign :: ts) (.negate sign e)
  | product {first : List Token} {l : Tree} {links : List Link} :
      Derives .operand first l → (∀ k ∈ links, k.sign.kind.multiplicative? = some k.op) →
      (∀ k ∈ links, Derives .operand k.tokens k.right) →
        Derives .product (first ++ links.flatMap Link.spelled) (links.foldl Link.join l)
  | sum {first : List Token} {l : Tree} {links : List Link} :
      Derives .product first l → (∀ k ∈ links, k.sign.kind.additive? = some k.op) →
      (∀ k ∈ links, Derives .product k.tokens k.right) →
        Derives .sum (first ++ links.flatMap Link.spelled) (links.foldl Link.join l)

def Token.isNumber (t : Token) : Bool := t.kind = .number

namespace Derives

variable {level : Level} {ts ls rs : List Token} {e l r : Tree} {sign : Token} {op : BinaryOp}

theorem product_of_operand (h : Derives .operand ts e) : Derives .product ts e := by
  simpa using @Derives.product ts e [] h (by simp) (by simp)

theorem sum_of_product (h : Derives .product ts e) : Derives .sum ts e := by
  simpa using @Derives.sum ts e [] h (by simp) (by simp)

theorem of_operand (h : Derives .operand ts e) : Derives level ts e := by
  cases level with
  | operand => exact h
  | product => exact h.product_of_operand
  | sum => exact h.product_of_operand.sum_of_product

theorem times (left : Derives .product ls l) (mark : sign.kind.multiplicative? = some op)
    (right : Derives .operand rs r) :
    Derives .product (ls ++ sign :: rs) (.binary op sign l r) := by
  cases left with
  | @product first l links head signs rights =>
    have longer := @Derives.product first l (links ++ [⟨sign, op, rs, r⟩]) head
      (by simpa [or_imp, forall_and] using ⟨signs, mark⟩)
      (by simpa [or_imp, forall_and] using ⟨rights, right⟩)
    simpa [Link.spelled, Link.join] using longer

theorem plus (left : Derives .sum ls l) (mark : sign.kind.additive? = some op)
    (right : Derives .product rs r) :
    Derives .sum (ls ++ sign :: rs) (.binary op sign l r) := by
  cases left with
  | @sum first l links head signs rights =>
    have longer := @Derives.sum first l (links ++ [⟨sign, op, rs, r⟩]) head
      (by simpa [or_imp, forall_and] using ⟨signs, mark⟩)
      (by simpa [or_imp, forall_and] using ⟨rights, right⟩)
    simpa [Link.spelled, Link.join] using longer

/-- Whatever the operator, a sum goes on with one more operand. The tree then depends on the last
product of the sum, but how deep it nests does not. -/
theorem extend (left : Derives .sum ls l)
    (mark : sign.kind.additive? = some op ∨ sign.kind.multiplicative? = some op)
    (right : Derives .operand rs r) :
    ∃ e, Derives .sum (ls ++ sign :: rs) e ∧ e.nesting = max l.nesting r.nesting := by
  rcases mark with mark | mark
  · exact ⟨_, left.plus mark right.product_of_operand, rfl⟩
  · cases left with
    | @sum first l links head signs rights =>
      rcases List.eq_nil_or_concat links with rfl | ⟨before, k, rfl⟩
      · refine ⟨.binary op sign l r, ?_, rfl⟩
        simpa using (head.times mark right).sum_of_product
      · -- The last product grows, and all before it stays.
        have grown := (rights k (by simp)).times mark right
        have initial : Derives .sum (first ++ before.flatMap Link.spelled) _ :=
          .sum head (fun j (hj : j ∈ before) => signs j (by simp [hj]))
            (fun j hj => rights j (by simp [hj]))
        refine ⟨_, by simpa [Link.spelled] using initial.plus (signs k (by simp)) grown, ?_⟩
        simp [Link.join, Tree.nesting, Nat.max_assoc]

theorem filter_links {links : List Link}
    (marks : ∀ k ∈ links, k.sign.kind ≠ .number)
    (rights : ∀ k ∈ links, k.tokens.filter Token.isNumber = k.right.numbers) :
    (links.flatMap Link.spelled).filter Token.isNumber =
      links.flatMap fun k => k.right.numbers := by
  induction links with
  | nil => rfl
  | cons k links ih =>
    rw [List.forall_mem_cons] at marks rights
    have mark : k.sign.isNumber = false := by simp [Token.isNumber, marks.1]
    simp [Link.spelled, mark, rights.1, ih marks.2 rights.2]

theorem filter_numbers (h : Derives level ts e) : ts.filter Token.isNumber = e.numbers := by
  induction h with
  | number kind => simp [Token.isNumber, kind, Tree.numbers]
  | group left _ right ih => simp [Token.isNumber, left, right, ih, Tree.numbers]
  | negate sign _ ih => simpa [Token.isNumber, sign, Tree.numbers] using ih
  | product _ signs _ ih rights_ih =>
    rw [List.filter_append, ih, Link.numbers_foldl,
      filter_links (fun k hk => Kind.multiplicative_not_number (signs k hk)) rights_ih]
  | sum _ signs _ ih rights_ih =>
    rw [List.filter_append, ih, Link.numbers_foldl,
      filter_links (fun k hk => Kind.additive_not_number (signs k hk)) rights_ih]

end Derives

def Level.continued : Level → Kind → Bool
  | .sum, kind => kind.additive?.isSome || kind.multiplicative?.isSome
  | .product, kind => kind.multiplicative?.isSome
  | .operand, _ => false

def Level.StopsAt (level : Level) (rest : List Token) : Prop :=
  ∀ t ∈ rest.head?, level.continued t.kind = false

theorem Level.operand_stopsAt (rest : List Token) : Level.operand.StopsAt rest := fun _ _ => rfl

/-- What a level derives is the same for all derivations that end where they have to. -/
def Level.Determines (level : Level) (ts : List Token) (e : Tree) : Prop :=
  ∀ ⦃ts' e' rest rest'⦄, Derives level ts' e' → ts ++ rest = ts' ++ rest' →
    level.StopsAt rest → level.StopsAt rest' → ts = ts' ∧ e = e'

section Chains

variable {sign? : Kind → Option BinaryOp} {inner outer : Level}
  (wider : ∀ kind, outer.continued kind = ((sign? kind).isSome || inner.continued kind))
  (own : ∀ kind op, sign? kind = some op → inner.continued kind = false)

include wider own in
theorem chain_stops (links : List Link) (rest : List Token)
    (signs : ∀ k ∈ links, sign? k.sign.kind = some k.op) (stop : outer.StopsAt rest) :
    inner.StopsAt (links.flatMap Link.spelled ++ rest) := by
  cases links with
  | nil =>
    intro t ht
    have outer_stop := stop t ht
    rw [wider, Bool.or_eq_false_iff] at outer_stop
    exact outer_stop.2
  | cons k links =>
    intro t ht
    obtain rfl : k.sign = t := by simpa [Link.spelled] using ht
    exact own _ _ (signs k (by simp))

include wider in
theorem chain_not_stopped {k : Link} {rest : List Token} (mark : sign? k.sign.kind = some k.op) :
    ¬ outer.StopsAt (k.sign :: rest) := by
  intro stop
  have stopped := stop k.sign (by simp)
  simp [wider, mark] at stopped

include wider own in
theorem chain_unique (links links' : List Link) (rest rest' : List Token)
    (signs : ∀ k ∈ links, sign? k.sign.kind = some k.op)
    (signs' : ∀ k ∈ links', sign? k.sign.kind = some k.op)
    (rights : ∀ k ∈ links, inner.Determines k.tokens k.right)
    (rights' : ∀ k ∈ links', Derives inner k.tokens k.right)
    (same : links.flatMap Link.spelled ++ rest = links'.flatMap Link.spelled ++ rest')
    (stop : outer.StopsAt rest) (stop' : outer.StopsAt rest') : links = links' := by
  induction links generalizing links' with
  | nil =>
    cases links' with
    | nil => rfl
    | cons k' links' =>
      obtain rfl : rest = _ := same
      exact absurd stop (chain_not_stopped wider (signs' k' (by simp)))
  | cons k links ih =>
    cases links' with
    | nil =>
      obtain rfl : _ = rest' := same
      exact absurd stop' (chain_not_stopped wider (signs k (by simp)))
    | cons k' links' =>
      rw [List.forall_mem_cons] at signs signs' rights rights'
      simp only [List.flatMap_cons, Link.spelled, List.cons_append, List.append_assoc,
        List.cons.injEq] at same
      obtain ⟨sign_eq, same⟩ := same
      have right_eq := rights.1 rights'.1 same
        (chain_stops wider own links rest signs.2 stop)
        (chain_stops wider own links' rest' signs'.2 stop')
      have op_eq : k.op = k'.op := by
        have both := signs.1.symm.trans (sign_eq ▸ signs'.1)
        exact Option.some.inj both
      rw [right_eq.1, List.append_cancel_left_eq] at same
      have tail_eq := ih links' signs.2 signs'.2 rights.2 rights'.2 same
      rw [tail_eq]
      cases k
      cases k'
      simp_all

end Chains

theorem product_wider (kind : Kind) : Level.product.continued kind =
    (kind.multiplicative?.isSome || Level.operand.continued kind) := by
  simp [Level.continued]

theorem sum_wider (kind : Kind) : Level.sum.continued kind =
    (kind.additive?.isSome || Level.product.continued kind) := rfl

theorem additive_stops_product (kind : Kind) (op : BinaryOp) (mark : kind.additive? = some op) :
    Level.product.continued kind = false := by
  simp [Level.continued, Kind.additive_not_multiplicative mark]

namespace Derives

theorem determines {level : Level} {ts : List Token} {e : Tree} (h : Derives level ts e) :
    level.Determines ts e := by
  -- On the first derivation. Its first token leaves the other one no other rule to start with.
  induction h with
  | @number t kind =>
    intro ts' e' rest rest' h' same _ _
    cases h' with
    | number _ => simp_all
    | group left _ _ => simp_all
    | negate sign _ => simp_all
  | @group opening closing inner e left _ right ih =>
    intro ts' e' rest rest' h' same _ _
    cases h' with
    | number kind => simp_all
    | @group opening' closing' inner' e' left' h' right' =>
      simp only [List.cons_append, List.append_assoc, List.cons.injEq] at same
      have inner_eq := ih h' same.2 (by simp [Level.StopsAt, right]; rfl)
        (by simp [Level.StopsAt, right']; rfl)
      simp_all
    | negate sign _ => simp_all
  | @negate sign ts e minus _ ih =>
    intro ts' e' rest rest' h' same _ _
    cases h' with
    | number kind => simp_all
    | group left _ _ => simp_all
    | @negate sign' ts' e' minus' h' =>
      simp only [List.cons_append, List.cons.injEq] at same
      have operand_eq := ih h' same.2 (Level.operand_stopsAt _) (Level.operand_stopsAt _)
      simp_all
  | @product first l links _ signs _ ih rights_ih =>
    intro ts' e' rest rest' h' same stop stop'
    cases h' with
    | @product first' l' links' h' signs' rights' =>
      rw [List.append_assoc, List.append_assoc] at same
      have first_eq := ih h' same (Level.operand_stopsAt _) (Level.operand_stopsAt _)
      rw [first_eq.1, List.append_cancel_left_eq] at same
      have links_eq := chain_unique product_wider (fun _ _ _ => rfl) links links' rest rest'
        signs signs' rights_ih rights' same stop stop'
      simp only [first_eq, links_eq, and_self]
  | @sum first l links _ signs _ ih rights_ih =>
    intro ts' e' rest rest' h' same stop stop'
    cases h' with
    | @sum first' l' links' h' signs' rights' =>
      rw [List.append_assoc, List.append_assoc] at same
      have first_eq := ih h' same
        (chain_stops sum_wider additive_stops_product links rest signs stop)
        (chain_stops sum_wider additive_stops_product links' rest' signs' stop')
      rw [first_eq.1, List.append_cancel_left_eq] at same
      have links_eq := chain_unique sum_wider additive_stops_product links links' rest rest'
        signs signs' rights_ih rights' same stop stop'
      simp only [first_eq, links_eq, and_self]

theorem unique {level : Level} {ts : List Token} {e e' : Tree} (h : Derives level ts e)
    (h' : Derives level ts e') : e = e' := by
  have stop : level.StopsAt [] := by simp [Level.StopsAt]
  exact (h.determines h' rfl stop stop).2

end Derives
end StackCalc
