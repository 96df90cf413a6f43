import Fermata.Proofs.Grammar.Named
import Mathlib.Data.List.TakeWhile

/-!
# Identifiers and keywords

A name on its own is read as an identifier unless it is a keyword: the rules that are tried before look
for whole words only, so that a name may begin like a keyword. Behind a dot every name is a property.

* `Grammar.parse_identifier`: a name that is no keyword is a program of one identifier.
* `Grammar.parse_dotted`: any name behind a dot is a member.
* `Grammar.identifier_iff`: a name is an identifier exactly if it is no keyword, and all names of a tree
  are identifiers.
-/

namespace Fermata

variable {n : String} {x : List Char}

namespace Lexeme

/-- A name is one word. -/
theorem word_name (hx : Text.isName x = true) : word x = some (x, []) := by
  rcases x with _ | ⟨c, cs⟩
  · cases hx
  · obtain ⟨hstart, hparts⟩ := Bool.and_eq_true_iff.mp hx
    have hpart : Text.isNamePart c = true := by simp [Text.isNamePart, hstart]
    have hall : ∀ e ∈ c :: cs, Text.isNamePart e = true :=
      List.forall_mem_cons.mpr ⟨hpart, List.all_eq_true.mp hparts⟩
    rw [word, if_pos hstart, List.span_eq_takeWhile_dropWhile, List.takeWhile_eq_self_iff.mpr hall,
      List.dropWhile_eq_nil_iff.mpr hall]

theorem isKeyword_eq_false (hkey : n ∉ keywords) : isKeyword n.toList = false := by
  rw [isKeyword, List.any_eq_false]
  intro k hk heq
  exact hkey (String.toList_inj.mp (of_decide_eq_true heq) ▸ hk)

/-- A name that is no keyword is one identifier. -/
theorem identifier_name (hn : isValidName n = true) (hkey : n ∉ keywords) :
    identifier n.toList = some (n.toList, []) := by
  rw [identifier, word_name hn]
  dsimp only
  rw [isKeyword_eq_false hkey]
  rfl

end Lexeme

namespace Grammar

open Matcher

variable {c : Cursor} {P : Built Expr → Prop} {i j m : Nat}

/-! ## A name on its own -/

/-- **A name that is no keyword is a program of one identifier.** -/
theorem parse_identifier (hn : isValidName n = true) (hkey : n ∉ Lexeme.keywords) :
    ∃ σ τ ι, parse n = .ok ⟨[.expression σ (.ident ι n)], τ, 1⟩ := by
  have hname := Lexeme.identifier_name hn hkey
  have hwritten : Written n.toList := .name hname
  have hfresh : Fresh ⟨n.toList, {}, 1⟩ := by
    have hnil := hwritten.fresh (.inl rfl) {} 1
    rwa [List.append_nil] at hnil
  obtain ⟨_, pos, ⟨ι, rfl⟩, hread⟩ := primary_name hfresh hname (32 * n.toList.length + 59)
  obtain ⟨σ, τ, hparse⟩ := parse_primary hwritten ⟨_, pos, rfl, hread⟩
  rw [String.ofList_toList] at hparse
  exact ⟨σ, τ, ι, hparse⟩

/-! ## A name behind a dot -/

/-- A text that is one operand with what follows it. -/
theorem parse_lhsExpr (hc : Bland ⟨x, {}, 1⟩) (hlabel : Fails (ident.closedBy (sym ":")) ⟨x, {}, 1⟩)
    (hread : Reads (lhsExpr (32 * x.length + 61)) ⟨x, {}, 1⟩ P [] j) :
    ∃ e, P e ∧ ∃ σ τ, parse (String.ofList x) =
      (e.map fun e => (⟨[.expression σ e], τ, j⟩ : Program)).mapError .unbuildable := by
  have hfuel : fuelFor x = 32 * x.length + 60 + 4 := by
    rw [fuelFor]
    omega
  have hunary : ∀ m, Reads (unary (m + 2) (some (lhsExpr (32 * x.length + 61) ⟨x, {}, 1⟩)))
      ⟨x, {}, 1⟩ P [] j := fun m => unary_alone hc.unprefixed hread stop_nil
  have hlevel := levels_alone hunary skips_nil (fun _ => rfl) precedence precedence_nil
    (32 * x.length + 45)
  have hconditional := conditional_alone hlevel skips_nil fun _ => rfl
  have hstatement := statement_alone hc hlabel <| expression_alone
    (assignment_alone hread stop_nil hconditional) skips_nil fun _ => rfl
  have hprogram := program_alone hc.skip hstatement
  rw [← hfuel] at hprogram
  obtain ⟨_, ⟨_, τ, ⟨σ, e, he, rfl⟩, rfl⟩, hparse⟩ := parse_of_reads hprogram
  refine ⟨e, he, σ, τ, hparse.trans ?_⟩
  cases e <;> rfl

/-- No trivia stands in front of a name. -/
theorem skips_name (hx : Text.isName x = true) : Skips x x := by
  rcases x with _ | ⟨ch, cs⟩
  · cases hx
  · have hstart := (Bool.and_eq_true_iff.mp hx).1
    have hslash : ch ≠ '/' := by
      rintro rfl
      cases hstart
    exact fun pos i => ⟨pos, skip_eq rfl (isSpace_head (.inl hstart)) hslash⟩

/-- Any name behind a dot is read. -/
theorem dotMember_name (hn : isValidName n = true) (pos : Position) :
    Reads dotMember ⟨'.' :: n.toList, pos, i⟩ (fun s => ∃ σ, s = .named σ n) [] i := by
  refine Reads.rule (P := fun t : Token => t.chars = n.toList) ?_ fun σ t ht => ⟨σ, ?_⟩
  · have hdot : Reads (sym ".") ⟨'.' :: n.toList, pos, i⟩ (fun _ => True) n.toList i :=
      ⟨(), _, trivial, rfl⟩
    exact hdot.andThen (skips_name hn) fun _ _ _ => reads_token (Lexeme.word_name hn)
  · rw [Token.text, ht, String.ofList_toList]

/-- A variable and one member. -/
theorem reads_dotted (hc : Fresh c) (hhead : Lexeme.identifier c.rest = some (x, '.' :: n.toList))
    (hn : isValidName n = true) : Reads (lhsExpr (m + 2)) c (fun v => ∃ ι κ,
      v = .ok (.member κ (.ident ι (String.ofList x)) (.named n) false)) [] c.nextFunction := by
  rw [lhsExpr]
  refine Reads.rule (P := fun v => ∃ ι κ,
    v = .ok (.member κ (.ident ι (String.ofList x)) (.named n) false)) ?_ fun _ _ hv => hv
  have hskip (pos) (i) : (⟨'.' :: n.toList, pos, i⟩ : Cursor).skip = ⟨'.' :: n.toList, pos, i⟩ :=
    skip_eq rfl (by decide) (by decide)
  refine (Reads.or_right (hc.newExpr_fails _) (primary_name hc hhead m)).andThen
    (fun pos i => ⟨pos, hskip pos i⟩) ?_
  rintro _ ⟨ι, rfl⟩ pos
  have hsuffixes : Reads (many (m + 1) (firstOf [arguments (m + 1), dotMember, indexMember (m + 1)]))
      ⟨'.' :: n.toList, pos, c.nextFunction⟩ (fun ss => ∃ σ, ss = [.named σ n]) [] c.nextFunction := by
    have harguments : Fails (arguments (m + 1)) ⟨'.' :: n.toList, pos, c.nextFunction⟩ := by
      rw [arguments]
      exact Fails.rule (Fails.andThen rfl)
    refine reads_many_of_more (hskip pos _) (reads_more_cons (hskip pos _)
      (.firstOf_cons harguments (.firstOf_head (dotMember_name hn pos))) ?_)
    rintro _ ⟨σ, rfl⟩ pos'
    exact (reads_more_nil rfl (stop_nil.suffix_fails _ pos' _) _).mono fun ss hss => ⟨σ, congrArg _ hss⟩
  refine hsuffixes.map ?_
  rintro _ ⟨σ, rfl⟩
  exact ⟨ι, _, rfl⟩

/-- **Any name behind a dot is a member**, also if it is a keyword. -/
theorem parse_dotted (hn : isValidName n = true) :
    ∃ σ τ ι κ, parse ("o." ++ n) =
      .ok ⟨[.expression σ (.member κ (.ident ι "o") (.named n) false)], τ, 1⟩ := by
  have hother : ∀ k ∈ Lexeme.keywords, ['o'] ≠ k.toList := by decide
  have hfresh : Fresh ⟨'o' :: '.' :: n.toList, {}, 1⟩ :=
    ⟨⟨'o', _, rfl, .inl (by decide)⟩, fun k hk => if_neg (hother k hk)⟩
  have hhead : Lexeme.identifier ('o' :: '.' :: n.toList) = some (['o'], '.' :: n.toList) := rfl
  have hlabel : Fails (ident.closedBy (sym ":")) ⟨'o' :: '.' :: n.toList, {}, 1⟩ := by
    refine (reads_token hhead).andThen_fails (y := '.' :: n.toList) (fun pos i => ⟨pos, ?_⟩)
      fun _ _ _ => Fails.map rfl
    exact skip_eq rfl (by decide) (by decide)
  have hread := reads_dotted (m := 32 * ('o' :: '.' :: n.toList).length + 59) hfresh hhead hn
  obtain ⟨_, ⟨ι, κ, rfl⟩, σ, τ, hparse⟩ := parse_lhsExpr hfresh.bland hlabel hread
  have htext : String.ofList ('o' :: '.' :: n.toList) = "o." ++ n :=
    String.toList_inj.mp (by rw [String.toList_append, String.toList_ofList]; rfl)
  rw [htext] at hparse
  exact ⟨σ, τ, ι, κ, hparse⟩

/-! ## Identifiers -/

/-- **Identifiers are the names that are no keywords.** A name alone is a program of one identifier
exactly if it is not one of the keywords, a name behind a dot is a member in any case, and all names that
a tree declares, mentions or uses as labels are identifiers. -/
theorem identifier_iff :
    (Lexeme.keywords.Nodup ∧ Lexeme.keywords.length = 26) ∧
      (∀ n, isValidName n = true →
        ((∃ p σ ι, parse n = .ok p ∧ p.body = [.expression σ (.ident ι n)]) ↔ n ∉ Lexeme.keywords) ∧
        ∃ σ τ ι κ, parse ("o." ++ n) =
          .ok ⟨[.expression σ (.member κ (.ident ι "o") (.named n) false)], τ, 1⟩) ∧
      ∀ source p, parse source = .ok p → ∀ t ∈ p.body, NamedStmt t := by
  refine ⟨⟨by decide, rfl⟩, fun n hn => ⟨⟨?_, fun hkey => ?_⟩, parse_dotted hn⟩,
    fun _ _ => parse_named⟩
  · rintro ⟨p, σ, ι, hparse, hbody⟩
    have hnamed : NamedStmt (.expression σ (.ident ι n)) := parse_named hparse _ (by simp [hbody])
    cases hnamed with
    | expression he =>
      cases he with
      | ident hx => exact hx.2
  · obtain ⟨σ, τ, ι, hparse⟩ := parse_identifier hn hkey
    exact ⟨_, σ, ι, hparse, rfl⟩

end Grammar

end Fermata
