import Fermata.Proofs.Grammar.Grouping
import Fermata.Proofs.Grammar.Single
import Fermata.Proofs.Grammar.Statement

/-!
# Precedence

Operands with operators between them, one blank on each side of an operator, are one expression: the
tree that the table of the operators gives.

* `Grammar.Operand.exists_name`, `Grammar.Operand.exists_number`, `Grammar.Operand.exists_of_parse`: what
  operands are.
* `Grammar.climbs`: what a level of the table reads, from the tightest to the loosest one.
* `Grammar.parse_grouped`: so every sequence of operands and operators is read as the one tree that
  follows the table, with the operands in their order.
-/

namespace Fermata.Grammar

open Matcher

/-! ## What is read -/

/-- An operand: a text that is a program on its own, of one statement with the tree given. -/
structure Operand where
  chars : List Char
  written : Written chars
  tree : Expr
  literals : Nat
  reads : ∃ σ τ, parse (String.ofList chars) = .ok ⟨[.expression σ tree], τ, 1 + literals⟩

/-- Whatever is written as an operand and is a program on its own is an operand. -/
theorem Operand.exists_of_parse {x : List Char} (hx : Written x) {program : Program}
    (h : parse (String.ofList x) = .ok program) :
    ∃ (a : Operand) (σ : Span), a.chars = x ∧ program.body = [.expression σ a.tree] ∧
      program.functionCount = 1 + a.literals := by
  obtain ⟨e, σ, τ, j, rfl, -⟩ := parse_single hx h
  have hj : j = 1 + (j - 1) := (Nat.add_sub_cancel' (parse_numbered h).le).symm
  rw [hj] at h
  exact ⟨⟨x, hx, e, j - 1, σ, τ, h⟩, σ, rfl, rfl, hj⟩

/-- Every name is an operand. -/
theorem Operand.exists_name {x : List Char} (h : Lexeme.identifier x = some (x, [])) :
    ∃ (a : Operand) (σ : Span), a.chars = x ∧ a.tree = .ident σ (String.ofList x) ∧
      a.literals = 0 := by
  have hx : Written x := .name h
  have hfresh : Fresh ⟨x, {}, 1⟩ := by
    have hnil := hx.fresh (.inl rfl) {} 1
    rwa [List.append_nil] at hnil
  obtain ⟨_, pos, ⟨ρ, rfl⟩, hread⟩ := primary_name hfresh h (32 * x.length + 59)
  obtain ⟨σ, τ, hparse⟩ := parse_primary hx ⟨_, pos, rfl, hread⟩
  exact ⟨⟨x, hx, _, 0, σ, τ, hparse⟩, ρ, rfl, rfl, rfl⟩

/-- Every number literal that has a value is an operand. -/
theorem Operand.exists_number {x : List Char} (h : Lexeme.number x = some (x, [])) {v : Float}
    (hv : Literal.number? x = some v) :
    ∃ (a : Operand) (σ : Span), a.chars = x ∧ a.tree = .number σ v ∧ a.literals = 0 := by
  have hx : Written x := .number h
  have hfresh : Fresh ⟨x, {}, 1⟩ := by
    have hnil := hx.fresh (.inl rfl) {} 1
    rwa [List.append_nil] at hnil
  obtain ⟨_, pos, ⟨t, rfl, rfl⟩, hread⟩ := primary_number hfresh h (32 * x.length + 59)
  have hvalue : numberValue t t.span = .ok v := by rw [numberValue, hv]
  rw [hvalue] at hread
  obtain ⟨σ, τ, hparse⟩ := parse_primary hx ⟨_, pos, rfl, hread⟩
  exact ⟨⟨_, hx, _, 0, σ, τ, hparse⟩, t.span, rfl, rfl, rfl⟩

/-- The text behind an operand. -/
def behind (rest : List (Operator × Operand)) : List Char :=
  rest.flatMap fun (op, a) => ' ' :: op.symbol.toList ++ ' ' :: a.chars

/-- The text behind an operand and a blank. -/
def ahead (rest : List (Operator × Operand)) : List Char := (behind rest).drop 1

/-- The text of operands with operators between them. -/
def written (first : Operand) (rest : List (Operator × Operand)) : List Char :=
  first.chars ++ behind rest

/-- The tree of an operator without places. -/
def Operator.join (op : Operator) (left right : Expr) : Expr :=
  match op with
  | .binary op => .binary {} op left right
  | .logical op => .logical {} op left right

/-- How many function literals there are. -/
def Grouping.literals : Grouping Operand → Nat
  | operand a => a.literals
  | join _ l r => l.literals + r.literals

/-- The tree without places, the function literals numbered in the order of the text from `δ`. -/
def Grouping.tree (δ : Nat) : Grouping Operand → Expr
  | operand a => a.tree.bare δ
  | join op l r => op.join (l.tree δ) (r.tree (δ + l.literals))

/-- The tree of a grouping was built. -/
def Grouping.Builds (g : Grouping Operand) (δ : Nat) (v : Built Expr) : Prop :=
  ∃ e, v = .ok e ∧ e.bare 0 = g.tree δ

variable {first : Operand} {rest : List (Operator × Operand)} {op : Operator} {a : Operand}
  {δ n m : Nat} {p : Position} {r s : List Char}

theorem behind_cons (op : Operator) (a : Operand) (rest : List (Operator × Operand)) :
    behind ((op, a) :: rest) = ' ' :: op.symbol.toList ++ ' ' :: written a rest := by
  simp [behind, written]

theorem ahead_cons (op : Operator) (a : Operand) (rest : List (Operator × Operand)) :
    ahead ((op, a) :: rest) = op.symbol.toList ++ ' ' :: written a rest := by
  rw [ahead, behind_cons]
  rfl

theorem apart_behind (rest : List (Operator × Operand)) : Apart (behind rest) := by
  cases rest with
  | nil => exact .inl rfl
  | cons x rest => exact .inr ⟨_, behind_cons x.1 x.2 rest⟩

theorem bare_node (op : Operator) (l r : Expr) : (op.node l r).bare 0 = op.join (l.bare 0) (r.bare 0) := by
  rcases op with op | op <;> exact Expr.bare.eq_def ..

/-! ## Operators as tokens -/

/-- Each operator is found in the table of its level, and no other table begins with it. -/
theorem picks_symbol (op : Operator) (r : List Char) (p : Position) (i : Nat) :
    precedence.map (fun table => (pick table ⟨op.symbol.toList ++ ' ' :: r, p, i⟩).result.map fun found =>
      (found.1, found.2.rest, found.2.nextFunction)) =
    (List.range 11).map fun k => if op.rank = k then some (op, ' ' :: r, i) else none := by
  rcases op with op | op <;> cases op <;> rfl

theorem stop_symbol (op : Operator) (r : List Char) : Stop (op.symbol.toList ++ ' ' :: r) where
  skip p i := by rcases op with op | op <;> cases op <;> rfl
  head := by rcases op with op | op <;> cases op <;> simp [Operator.symbol]
  update := by rcases op with op | op <;> cases op <;> exact none_of_all rfl
  assign := by rcases op with op | op <;> cases op <;> exact none_of_all rfl

theorem power_fails (h : op.rank < 11) (i : Nat) :
    Fails power ⟨op.symbol.toList ++ ' ' :: r, p, i⟩ := by
  rcases op with op | op <;> cases op <;> first | rfl | exact absurd h (by decide)

theorem power_reads (r : List Char) (p : Position) (i : Nat) :
    Reads power ⟨(Operator.binary .pow).symbol.toList ++ ' ' :: r, p, i⟩ (fun _ => True) (' ' :: r) i :=
  ⟨_, _, trivial, rfl⟩

/-- What the table of a level finds in front of an operator. -/
theorem result_pick {k : Nat} (hk : k < precedence.length) (op : Operator) (r : List Char) (p : Position)
    (i : Nat) :
    (pick precedence[k] ⟨op.symbol.toList ++ ' ' :: r, p, i⟩).result.map (fun found =>
      (found.1, found.2.rest, found.2.nextFunction)) =
    if op.rank = k then some (op, ' ' :: r, i) else none := by
  have hpicks := congrArg (·[k]?) (picks_symbol op r p i)
  rw [List.getElem?_map, List.getElem?_map, List.getElem?_eq_getElem hk,
    List.getElem?_range (show k < 11 from hk)] at hpicks
  exact Option.some.inj hpicks

theorem pick_symbol_fails {k : Nat} (hk : k < precedence.length) (h : op.rank ≠ k) (i : Nat) :
    Fails (pick precedence[k]) ⟨op.symbol.toList ++ ' ' :: r, p, i⟩ := by
  have hpick := result_pick hk op r p i
  rwa [if_neg h, Option.map_eq_none_iff] at hpick

theorem pick_symbol_reads {k : Nat} (hk : k < precedence.length) (h : op.rank = k) (i : Nat) :
    Reads (pick precedence[k]) ⟨op.symbol.toList ++ ' ' :: r, p, i⟩ (· = op) (' ' :: r) i := by
  have hpick := result_pick hk op r p i
  rw [if_pos h, Option.map_eq_some_iff] at hpick
  obtain ⟨⟨found, ⟨x, pos, j⟩⟩, hresult, hfound⟩ := hpick
  cases hfound
  exact ⟨found, pos, rfl, hresult⟩

/-! ## Operands between operators -/

theorem stop_ahead (rest : List (Operator × Operand)) : Stop (ahead rest) := by
  cases rest with
  | nil => exact stop_nil
  | cons x rest => exact ahead_cons x.1 x.2 rest ▸ stop_symbol ..

theorem skips_behind (rest : List (Operator × Operand)) : Skips (behind rest) (ahead rest) := by
  cases rest with
  | nil => exact skips_nil
  | cons x rest =>
    intro p i
    have hskip := (stop_ahead (x :: rest)).skip (p.advance ' ') i
    rw [ahead_cons] at hskip ⊢
    rw [behind_cons]
    exact ⟨_, hskip⟩

theorem fresh_written (first : Operand) (rest : List (Operator × Operand)) (p : Position) (i : Nat) :
    Fresh ⟨written first rest, p, i⟩ :=
  first.written.fresh (apart_behind rest) p i

/-- **An operand is read in front of any other text as on its own.** -/
theorem Operand.primary (a : Operand) (hs : Apart s) (p : Position) (δ : Nat)
    (hn : 32 * a.chars.length + 2 ≤ n) :
    Reads (Grammar.primary n) ⟨a.chars ++ s, p, 1 + δ⟩ (Grouping.operand a |>.Builds δ) s
      (1 + δ + a.literals) := by
  obtain ⟨σ, τ, hparse⟩ := a.reads
  obtain ⟨e, _, _, j, hprogram, ⟨_, pos, rfl, hread⟩⟩ := parse_single a.written hparse
  cases hprogram
  rcases primary_written a.written hs (p := {}) (q := p) (i := 1) (δ := δ)
    (n := 32 * a.chars.length + 60) (by omega) hn with
    hfails | ⟨_, _, j, ⟨v, _, rfl, hv⟩, ⟨w, pos', rfl, hw⟩, hsame⟩
  · rw [Fails, hread] at hfails
    cases hfails
  · rw [hread] at hv
    cases hv
    cases hsame with
    | built h =>
      rw [Nat.add_right_comm]
      exact ⟨_, pos', ⟨_, rfl, h.symm⟩, hw⟩

/-! ## Levels -/

/-- What a level reads of operands and operators: as many as it can, grouped by the table. -/
structure Part (k : Nat) (first : Operand) (rest : List (Operator × Operand)) (g : Grouping Operand)
    (left : List (Operator × Operand)) : Prop where
  first : g.first = first
  rest : g.rest ++ left = rest
  ordered : g.Ordered
  rank : k ≤ g.rank
  next : ∀ x ∈ left.head?, x.1.rank < k

/-- A left-hand side is still to be read, or was read with enough fuel. -/
def Ahead (head : Head) (c : Cursor) : Prop :=
  head = none ∨ ∃ m, 32 * c.rest.length + 3 ≤ m ∧ head = some (lhsExpr m c)

theorem lhsExpr_reads (hn : 32 * first.chars.length + 3 ≤ n) (p : Position) (δ : Nat) :
    Reads (lhsExpr n) ⟨written first rest, p, 1 + δ⟩ ((Grouping.operand first).Builds δ) (ahead rest)
      (1 + δ + first.literals) := by
  obtain ⟨n, rfl⟩ : ∃ n', n = n' + 1 := ⟨n - 1, by omega⟩
  exact lhsExpr_alone (fresh_written first rest p _).bland.unprefixed
    (first.primary (apart_behind rest) p δ (by omega)) (skips_behind rest) (stop_ahead rest)

theorem length_written (first : Operand) (rest : List (Operator × Operand)) :
    first.chars.length ≤ (written first rest).length := by
  rw [written, List.length_append]
  exact Nat.le_add_right ..

theorem unary_reads {head : Head} (hn : 32 * (written first rest).length + 5 ≤ n)
    (hhead : Ahead head ⟨written first rest, p, 1 + δ⟩) :
    Reads (unary n head) ⟨written first rest, p, 1 + δ⟩ ((Grouping.operand first).Builds δ)
      (ahead rest) (1 + δ + first.literals) := by
  have hlength := length_written first rest
  obtain ⟨n, rfl⟩ : ∃ n', n = n' + 2 := ⟨n - 2, by omega⟩
  refine unary_alone (fresh_written first rest p _).bland.unprefixed ?_ (stop_ahead rest)
  rcases hhead with rfl | ⟨m, hm, rfl⟩
  · exact lhsExpr_reads (by omega) p δ
  · dsimp only at hm
    exact lhsExpr_reads (n := m) (by omega) p δ

/-- What is behind an operator is shorter. -/
theorem length_written_cons (first : Operand) (op : Operator) (a : Operand)
    (rest : List (Operator × Operand)) :
    (written a rest).length + 2 ≤ (written first ((op, a) :: rest)).length := by
  rw [written.eq_def first, behind_cons, List.length_append, List.length_append, List.length_cons,
    List.length_cons]
  omega

theorem skips_blank (first : Operand) (rest : List (Operator × Operand)) :
    Skips (' ' :: written first rest) (written first rest) := by
  intro p i
  have hskip := (fresh_written first rest (p.advance ' ') i).skip
  exact ⟨_, hskip⟩

/-- Powers are grouped to the right. -/
theorem exponent_reads (first : Operand) (rest : List (Operator × Operand)) :
    ∃ g left, Part 11 first rest g left ∧ ∀ n head p δ,
      32 * (written first rest).length + 6 ≤ n → Ahead head ⟨written first rest, p, 1 + δ⟩ →
      Reads (exponent n head) ⟨written first rest, p, 1 + δ⟩ (g.Builds δ) (ahead left)
        (1 + δ + g.literals) := by
  induction rest generalizing first with
  | nil =>
    refine ⟨.operand first, [], ⟨rfl, rfl, trivial, Nat.le_succ 11, by simp⟩, fun n head p δ hn hhead => ?_⟩
    obtain ⟨n, rfl⟩ : ∃ n', n = n' + 1 := ⟨n - 1, by omega⟩
    exact exponent_alone (unary_reads (by omega) hhead) skips_nil fun _ => rfl
  | cons x rest ih =>
    obtain ⟨op, a⟩ := x
    by_cases hop : op.rank < 11
    · refine ⟨.operand first, (op, a) :: rest, ⟨rfl, rfl, trivial, Nat.le_succ 11, ?_⟩,
        fun n head p δ hn hhead => ?_⟩
      · rintro _ ⟨⟩
        exact hop
      · obtain ⟨n, rfl⟩ : ∃ n', n = n' + 1 := ⟨n - 1, by omega⟩
        refine exponent_alone (unary_reads (by omega) hhead) (stop_ahead _).skips fun pos => ?_
        rw [ahead_cons]
        exact power_fails hop _
    · obtain rfl := Operator.rank_eq_iff.mp (Nat.le_antisymm op.rank_le (Nat.not_lt.mp hop))
      obtain ⟨g, left, hg, hread⟩ := ih a
      refine ⟨.join (.binary .pow) (.operand first) g, left, ⟨rfl, ?_, ?_, Nat.le_refl 11, hg.next⟩,
        fun n head p δ hn hhead => ?_⟩
      · rw [← hg.rest, ← hg.first]
        rfl
      · exact ⟨trivial, hg.ordered, Nat.lt_succ_self 11, hg.rank⟩
      · obtain ⟨n, rfl⟩ : ∃ n', n = n' + 1 := ⟨n - 1, by omega⟩
        have hlength := length_written_cons first (.binary .pow) a rest
        rw [exponent]
        refine Reads.rule (P := fun r => (Grouping.operand first).Builds δ r.1 ∧
          ∃ e, r.2 = some e ∧ g.Builds (δ + first.literals) e) ?_ ?_
        · refine (unary_reads (by omega) hhead).andThen (stop_ahead _).skips fun base hbase pos => ?_
          rw [ahead_cons]
          refine Reads.map (P := fun e => ∃ b, e = some b ∧ g.Builds (δ + first.literals) b)
            (.optional_some ?_) fun e he => ⟨hbase, he⟩
          refine (power_reads _ pos _).andThen (skips_blank a rest) fun _ _ pos => ?_
          have hright := hread n none pos (δ + first.literals) (by omega) (.inl rfl)
          rw [← Nat.add_assoc] at hright
          rw [Grouping.literals, Grouping.literals, ← Nat.add_assoc]
          exact hright.mono fun e he => ⟨e, rfl, he⟩
        · rintro σ ⟨base, e⟩ ⟨⟨x, rfl, hx⟩, _, rfl, y, rfl, hy⟩
          refine ⟨.binary σ .pow x y, rfl, ?_⟩
          rw [Expr.bare, hx, hy]
          rfl

/-- What the level with the number `k` reads. -/
def Climbs (k : Nat) : Prop := ∀ first rest, ∃ g left, Part k first rest g left ∧
  ∀ n head p δ, 32 * (written first rest).length + 18 ≤ n + k →
    Ahead head ⟨written first rest, p, 1 + δ⟩ →
    Reads (level n (precedence.drop k) head) ⟨written first rest, p, 1 + δ⟩ (g.Builds δ) (ahead left)
      (1 + δ + g.literals)

theorem climbs_exponent : Climbs 11 := by
  intro first rest
  obtain ⟨g, left, hg, hread⟩ := exponent_reads first rest
  refine ⟨g, left, hg, fun n head p δ hn hhead => ?_⟩
  obtain ⟨n, rfl⟩ : ∃ n', n = n' + 1 := ⟨n - 1, by omega⟩
  exact hread n head p δ (by omega) hhead

theorem pick_nil {k : Nat} (hk : k < precedence.length) (i : Nat) :
    Fails (pick precedence[k]) ⟨[], p, i⟩ :=
  pick_fails (precedence_nil _ (List.getElem_mem hk))

theorem length_behind (first : Operand) (rest : List (Operator × Operand)) :
    (behind rest).length ≤ (written first rest).length := by
  rw [written, List.length_append]
  exact Nat.le_add_left ..

theorem length_behind_cons (op : Operator) (a : Operand) (rest : List (Operator × Operand)) :
    (written a rest).length + 2 ≤ (behind ((op, a) :: rest)).length := by
  rw [behind_cons, List.length_append, List.length_cons, List.length_cons]
  omega

theorem length_behind_append (taken left : List (Operator × Operand)) :
    (behind left).length ≤ (behind (taken ++ left)).length := by
  rw [behind, behind, List.flatMap_append, List.length_append]
  exact Nat.le_add_left ..

theorem length_behind_left {k : Nat} {g : Grouping Operand} {left : List (Operator × Operand)}
    (h : Part k first rest g left) : (behind left).length ≤ (behind rest).length :=
  h.rest ▸ length_behind_append g.rest left

/-- What a level with the number `k` and the operators of the table reads behind operands and operators
of its own or of tighter levels. -/
def Loops (k : Nat) (table : List (Lexeme × Operator)) (g : Grouping Operand)
    (rest : List (Operator × Operand)) : Prop :=
  ∃ h left, Part k g.first (g.rest ++ rest) h left ∧ ∀ n fuel p δ,
    32 * (behind rest).length + 18 ≤ n + (k + 1) → (behind rest).length ≤ fuel →
    Reads (more ((pick table).andThen fun op =>
        (level n (precedence.drop (k + 1)) none).map fun e => (op, e)) fuel)
      ⟨ahead rest, p, 1 + δ + g.literals⟩
      (fun vs => ∀ e, e.bare 0 = g.tree δ → h.Builds δ (groupLeft (.ok e) vs)) (ahead left)
      (1 + δ + h.literals)

variable {k : Nat} {g : Grouping Operand} {table : List (Lexeme × Operator)}

/-- An operator of a looser level, or the end. -/
theorem loops_stop (hg : g.Ordered) (hrank : k ≤ g.rank) (hnext : ∀ x ∈ rest.head?, x.1.rank < k)
    (hfails : ∀ p i, Fails (pick table) ⟨ahead rest, p, i⟩) : Loops k table g rest := by
  refine ⟨g, rest, ⟨rfl, rfl, hg, hrank, hnext⟩, fun n fuel p δ _ _ => ?_⟩
  refine (reads_more_nil ((stop_ahead rest).skip _ _) (hfails _ _).andThen fuel).mono ?_
  rintro _ rfl e he
  exact ⟨e, rfl, he⟩

/-- An operator of the level. -/
theorem loops_join {r : Grouping Operand} {left : List (Operator × Operand)}
    (hpick : ∀ r p i, Reads (pick table) ⟨op.symbol.toList ++ ' ' :: r, p, i⟩ (· = op) (' ' :: r) i)
    (hr : Part (k + 1) a rest r left)
    (hright : ∀ n p δ, 32 * (written a rest).length + 18 ≤ n + (k + 1) →
      Reads (level n (precedence.drop (k + 1)) none) ⟨written a rest, p, 1 + δ⟩ (r.Builds δ)
        (ahead left) (1 + δ + r.literals))
    (hloop : Loops k table (.join op g r) left) : Loops k table g ((op, a) :: rest) := by
  obtain ⟨h, left', hh, hreads⟩ := hloop
  refine ⟨h, left', ?_, fun n fuel p δ hn hfuel => ?_⟩
  · have hrest : (Grouping.join op g r).rest ++ left = g.rest ++ (op, a) :: rest := by
      rw [← hr.rest, ← hr.first, Grouping.rest, List.append_assoc, List.cons_append]
    exact hrest ▸ hh
  · obtain ⟨fuel, rfl⟩ : ∃ m, fuel = m + 1 := by
      refine ⟨fuel - 1, ?_⟩
      rw [behind_cons, List.cons_append, List.length_cons] at hfuel
      omega
    have hlength := length_behind_cons op a rest
    have hleft := Nat.le_trans (length_behind_left hr) (length_behind a rest)
    refine reads_more_cons ((stop_ahead _).skip _ _)
      (P := fun v => v.1 = op ∧ r.Builds (δ + g.literals) v.2)
      (x := ahead left) (i := 1 + δ + (Grouping.join op g r).literals) ?_ ?_
    · rw [ahead_cons]
      refine (hpick _ _ _).andThen (skips_blank a rest) fun found hfound pos => ?_
      have htail := hright n pos (δ + g.literals) (by omega)
      rw [← Nat.add_assoc] at htail
      rw [Grouping.literals, ← Nat.add_assoc]
      exact htail.map fun e he => ⟨hfound, he⟩
    · rintro ⟨_, _⟩ ⟨rfl, e', rfl, he'⟩ pos
      refine (hreads n fuel pos δ (by omega) (by omega)).mono fun vs hvs e he => ?_
      refine hvs _ ?_
      rw [bare_node, he, he']
      rfl

/-- What a level reads behind its first operand: operators of its own and of tighter levels. -/
theorem loops_level (hk : k < precedence.length) (hclimbs : Climbs (k + 1))
    (rest : List (Operator × Operand)) (g : Grouping Operand) (hg : g.Ordered) (hrank : k ≤ g.rank)
    (hnext : ∀ x ∈ rest.head?, x.1.rank < k + 1) : Loops k precedence[k] g rest := by
  induction hsize : rest.length using Nat.strongRecOn generalizing rest g with
  | _ size ih =>
    subst hsize
    cases rest with
    | nil => exact loops_stop hg hrank (by simp) fun _ _ => pick_nil hk _
    | cons x rest =>
      obtain ⟨op, a⟩ := x
      rcases Nat.lt_or_eq_of_le (Nat.le_of_lt_succ (hnext _ rfl)) with hop | rfl
      · refine loops_stop hg hrank (by rintro _ ⟨⟩; exact hop) fun _ _ => ?_
        rw [ahead_cons]
        exact pick_symbol_fails hk (Nat.ne_of_lt hop) _
      · obtain ⟨r, left, hr, hright⟩ := hclimbs a rest
        have hjoin : (Grouping.join op g r).Ordered := by
          refine ⟨hg, hr.ordered, ?_⟩
          rw [if_neg fun hgroups => absurd (Operator.groupsRight_iff.mp hgroups) (Nat.ne_of_lt hk)]
          exact ⟨hrank, hr.rank⟩
        have hlength : left.length < ((op, a) :: rest).length := by
          rw [← hr.rest, List.length_cons, List.length_append]
          omega
        exact loops_join (fun _ _ _ => pick_symbol_reads hk rfl _) hr
          (fun n p δ hn => hright n none p δ hn (.inl rfl))
          (ih _ hlength left (.join op g r) hjoin (Nat.le_refl _) hr.next rfl)

/-- A level reads what the tighter level reads, and goes on from there. -/
theorem climbs_level (hk : k < precedence.length) (h : Climbs (k + 1)) : Climbs k := by
  intro first rest
  obtain ⟨g, left, hg, hread⟩ := h first rest
  obtain ⟨g', left', hg', hloop⟩ :=
    loops_level hk h left g hg.ordered (Nat.le_of_succ_le hg.rank) hg.next
  refine ⟨g', left', ?_, fun n head p δ hn hhead => ?_⟩
  · rwa [hg.rest, hg.first] at hg'
  · have hlevels : k < 11 := hk
    obtain ⟨n, rfl⟩ : ∃ m, n = m + 1 := ⟨n - 1, by omega⟩
    have hlength := length_behind_left hg
    have hwritten := length_behind first rest
    rw [List.drop_eq_getElem_cons hk, level]
    refine Reads.rule (P := g'.Builds δ) ?_ fun _ _ hv => hv
    refine (hread n head p δ (by omega) hhead).andThen (stop_ahead left).skips fun v hv pos => ?_
    obtain ⟨e, rfl, he⟩ := hv
    refine (reads_many_of_more ((stop_ahead left).skip _ _)
      (hloop n (n + 1) pos δ (by omega) (by omega))).map fun vs hvs => hvs e he

/-- **Every level of the table**, counted from the tightest one. -/
theorem climbs (j : Nat) (hj : j ≤ 11) : Climbs (11 - j) := by
  induction j with
  | zero => exact climbs_exponent
  | succ j ih =>
    have hlevel : 11 - j = 11 - (j + 1) + 1 := by omega
    refine climbs_level (show 11 - (j + 1) < 11 by omega) ?_
    rw [← hlevel]
    exact ih (Nat.le_of_succ_le hj)

/-- **Operands and operators are read by the table.** Of operands with operators between them there is
one tree that follows the table, and the text is a program with this expression as its one statement. -/
theorem parse_grouped (first : Operand) (rest : List (Operator × Operand)) :
    ∃ g : Grouping Operand, g.first = first ∧ g.rest = rest ∧ g.Ordered ∧
      (∀ g', g'.first = first → g'.rest = rest → g'.Ordered → g' = g) ∧
      ∃ σ τ e, parse (String.ofList (written first rest)) =
        .ok ⟨[.expression σ e], τ, 1 + g.literals⟩ ∧ e.bare 0 = g.tree 0 := by
  obtain ⟨g, left, hg, hread⟩ := climbs 11 (Nat.le_refl 11) first rest
  obtain rfl : left = [] := by
    cases left with
    | nil => rfl
    | cons x left => exact absurd (hg.next x rfl) (Nat.not_lt_zero _)
  obtain rfl : g.rest = rest := (List.append_nil _).symm.trans hg.rest
  obtain rfl := hg.first
  refine ⟨g, rfl, rfl, hg.ordered, fun g' hfirst hrest h => h.unique hg.ordered hfirst hrest, ?_⟩
  have hlength := length_written g.first g.rest
  have hfuel : fuelFor (written g.first g.rest) = 32 * (written g.first g.rest).length + 60 + 4 := by
    rw [fuelFor]
    omega
  have hlevel := hread (32 * (written g.first g.rest).length + 60) _ {} 0 (by omega)
    (.inr ⟨32 * (written g.first g.rest).length + 60 + 1, by dsimp only; omega, rfl⟩)
  have hapart := apart_behind g.rest
  obtain ⟨_, ⟨e, rfl, he⟩, σ, τ, hparse⟩ :=
    parse_expression (g.first.written.fresh hapart {} 1).bland
      (label_fails g.first.written hapart (skips_behind g.rest) (stop_ahead g.rest) {} 1)
      (skips_behind g.rest) (stop_ahead g.rest) hfuel
      (g.first.primary hapart {} 0 (by omega)) hlevel
  exact ⟨σ, τ, e, hparse, he⟩

/-- A power between two differences. -/
theorem parse_grouped_power : ∃ first rest, written first rest = "a - b ** c - d".toList ∧
    ∃ σ τ e, parse (String.ofList (written first rest)) = .ok ⟨[.expression σ e], τ, 1⟩ ∧
      e.bare 0 = .binary {} .sub (.binary {} .sub (.ident {} "a")
        (.binary {} .pow (.ident {} "b") (.ident {} "c"))) (.ident {} "d") := by
  obtain ⟨a, _, ha, ta, la⟩ := Operand.exists_name (x := ['a']) (by decide)
  obtain ⟨b, _, hb, tb, lb⟩ := Operand.exists_name (x := ['b']) (by decide)
  obtain ⟨c, _, hc, tc, lc⟩ := Operand.exists_name (x := ['c']) (by decide)
  obtain ⟨d, _, hd, td, ld⟩ := Operand.exists_name (x := ['d']) (by decide)
  obtain ⟨g, -, -, -, hunique, σ, τ, e, hparse, he⟩ :=
    parse_grouped a [(.binary .sub, b), (.binary .pow, c), (.binary .sub, d)]
  obtain rfl := hunique (.join (.binary .sub) (.join (.binary .sub) (.operand a)
    (.join (.binary .pow) (.operand b) (.operand c))) (.operand d)) rfl rfl
    (by simp [Grouping.Ordered, Grouping.rank, Operator.rank, Operator.groupsRight])
  refine ⟨a, [(.binary .sub, b), (.binary .pow, c), (.binary .sub, d)], ?_, σ, τ, e, ?_, ?_⟩
  · rw [written, ha]
    simp [behind, hb, hc, hd, Operator.symbol]
  · simpa [Grouping.literals, la, lb, lc, ld] using hparse
  · simpa [Grouping.tree, Operator.join, Expr.bare, ta, tb, tc, td] using he

/-- What is refused on its own is refused as an operand: a number that is too large, and parentheses
around something that has no tree. -/
theorem parse_refused_operands :
    (Written "0x10000000000000000".toList ∧ Written "(1 = a)".toList ∧ Written ['b']) ∧
      ∀ program, parse "0x10000000000000000 + b" ≠ .ok program ∧
        parse "(1 = a) + b" ≠ .ok program := by
  have hrefused : ∀ {c : Except CompileError Program}, c.toOption.isNone → ∀ program, c ≠ .ok program := by
    rintro _ h program rfl
    cases h
  refine ⟨⟨.number (by decide), .parentheses (w := "1 = a)".toList) (by rfl), .name (by decide)⟩,
    fun program => ⟨hrefused ?_ program, hrefused ?_ program⟩⟩ <;> decide +kernel

end Fermata.Grammar
