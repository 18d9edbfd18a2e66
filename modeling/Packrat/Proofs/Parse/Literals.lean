/-
A literal held against the text at hand. It matches where the text begins with it, and then it is all
that is read. Otherwise it fails behind what the two have in common: because the text ends there, or
because it goes on with another character than the literal.
-/
import Packrat.Proofs.Session.Logic

namespace Packrat

/-! ## What two texts have in common -/

/-- Both texts begin with it, and it begins with all that both texts begin with. -/
structure LongestCommonPrefix (c a b : List Char) : Prop where
  left : c <+: a
  right : c <+: b
  longest : ∀ p, p <+: a → p <+: b → p <+: c

/-- The text that two texts have in common at their beginnings. -/
def commonPrefix : List Char → List Char → List Char
  | c :: a, d :: b => if c = d then c :: commonPrefix a b else []
  | _, _ => []

theorem commonPrefix_longest (a b : List Char) : LongestCommonPrefix (commonPrefix a b) a b := by
  fun_induction commonPrefix a b with
  | case1 a c b ih =>
    refine ⟨List.cons_prefix_cons.2 ⟨rfl, ih.left⟩, List.cons_prefix_cons.2 ⟨rfl, ih.right⟩, fun p ha hb => ?_⟩
    cases p with
    | nil => exact List.nil_prefix
    | cons d p =>
      obtain ⟨rfl, hp⟩ := List.cons_prefix_cons.1 ha
      exact List.cons_prefix_cons.2 ⟨rfl, ih.longest p hp (List.cons_prefix_cons.1 hb).2⟩
  | case2 c a d b hne =>
    refine ⟨List.nil_prefix, List.nil_prefix, fun p ha hb => ?_⟩
    cases p with
    | nil => exact List.nil_prefix
    | cons e p => exact absurd ((List.cons_prefix_cons.1 ha).1.symm.trans (List.cons_prefix_cons.1 hb).1) hne
  | case3 a b hshort =>
    refine ⟨List.nil_prefix, List.nil_prefix, fun p ha hb => ?_⟩
    cases p with
    | nil => exact List.nil_prefix
    | cons e p =>
      obtain ⟨a', rfl⟩ := ha
      obtain ⟨b', rfl⟩ := hb
      exact absurd rfl (hshort e _ e _ rfl)

/-! ## Reading a literal -/

/-- What comes of holding a literal against the text at a location. -/
structure ReadsLiteral (literal rest : List Char) (l : Location) (verdict : Verdict) : Prop where
  matched_iff : (∃ t, verdict = .matched t) ↔ literal <+: rest
  whole : literal <+: rest → verdict = .matched (.text (.own ⟨l, l.after literal, literal⟩) literal)
  /-- If the text is not long enough, it ends where the literal goes on; otherwise both go on, but differently. -/
  stops : ¬ literal <+: rest → ∃ c, LongestCommonPrefix c literal rest ∧
    (c = rest → ∃ wanted, c ++ [wanted] <+: literal ∧ verdict = .failed ⟨.endOfInput wanted literal, l.after c⟩) ∧
    (c.length < rest.length → ∃ wanted found, found ≠ wanted ∧ c ++ [wanted] <+: literal ∧ c ++ [found] <+: rest ∧
      verdict = .failed ⟨.wrongCharacter found wanted literal, l.after c⟩)

/-- Where the text ends within what is wanted, reading stops with all of the text read. -/
theorem readLiteral_short (literal : List Char) {wanted rest : List Char} (s : Scan) (hn : ¬ wanted <+: rest)
    (hc : commonPrefix wanted rest = rest) : ∃ next, commonPrefix wanted rest ++ [next] <+: wanted ∧
      readLiteral literal wanted rest s = .error ⟨.endOfInput next literal, (s.run (commonPrefix wanted rest)).location⟩ := by
  fun_induction commonPrefix wanted rest generalizing s with
  | case1 wanted c rest ih =>
    obtain ⟨next, hnext, he⟩ := ih (s.step c) (fun h => hn (List.cons_prefix_cons.2 ⟨rfl, h⟩)) (List.cons.inj hc).2
    refine ⟨next, List.cons_prefix_cons.2 ⟨rfl, hnext⟩, ?_⟩
    rw [readLiteral, if_pos rfl, he, Scan.run_cons]
  | case2 => cases hc
  | case3 wanted rest _ =>
    subst hc
    cases wanted with
    | nil => exact absurd List.nil_prefix hn
    | cons next wanted => exact ⟨next, by simp, rfl⟩

/-- Where the text goes on differently, reading stops with what was alike read. -/
theorem readLiteral_parted (literal : List Char) {wanted rest : List Char} (s : Scan) (hn : ¬ wanted <+: rest)
    (hc : (commonPrefix wanted rest).length < rest.length) : ∃ next found, found ≠ next ∧
      commonPrefix wanted rest ++ [next] <+: wanted ∧ commonPrefix wanted rest ++ [found] <+: rest ∧
      readLiteral literal wanted rest s =
        .error ⟨.wrongCharacter found next literal, (s.run (commonPrefix wanted rest)).location⟩ := by
  fun_induction commonPrefix wanted rest generalizing s with
  | case1 wanted c rest ih =>
    obtain ⟨next, found, hne, hnext, hfound, he⟩ := ih (s.step c)
      (fun h => hn (List.cons_prefix_cons.2 ⟨rfl, h⟩)) (Nat.lt_of_succ_lt_succ hc)
    refine ⟨next, found, hne, List.cons_prefix_cons.2 ⟨rfl, hnext⟩, List.cons_prefix_cons.2 ⟨rfl, hfound⟩, ?_⟩
    rw [readLiteral, if_pos rfl, he, Scan.run_cons]
  | case2 next wanted found rest hne =>
    refine ⟨next, found, Ne.symm hne, by simp, by simp, ?_⟩
    rw [readLiteral, if_neg (Ne.symm hne)]
    rfl
  | case3 wanted rest hshort =>
    cases wanted with
    | nil => exact absurd List.nil_prefix hn
    | cons next wanted =>
      cases rest with
      | nil => simp at hc
      | cons found rest => exact absurd rfl (hshort _ _ _ _ rfl)

theorem readsLiteral_literalVerdict (literal rest : List Char) (l : Location) :
    ReadsLiteral literal rest l (literalVerdict literal rest l) := by
  have hmatched : literal <+: rest →
      literalVerdict literal rest l = .matched (.text (.own ⟨l, l.after literal, literal⟩) literal) := by
    intro hpre
    rw [literalVerdict, (readLiteral_eq_ok literal literal rest (.start l) _).2 ⟨hpre, rfl⟩]
    rfl
  refine ⟨⟨?_, fun h => ⟨_, hmatched h⟩⟩, hmatched, fun hn =>
    ⟨_, commonPrefix_longest literal rest, fun hc => ?_, fun hc => ?_⟩⟩
  · rintro ⟨t, ht⟩
    unfold literalVerdict at ht
    split at ht
    · next stop hread => exact ((readLiteral_eq_ok _ _ _ _ _).1 hread).1
    · cases ht
  · obtain ⟨wanted, hwanted, he⟩ := readLiteral_short literal (.start l) hn hc
    exact ⟨wanted, hwanted, by rw [literalVerdict, he]; rfl⟩
  · obtain ⟨wanted, found, hne, hwanted, hfound, he⟩ := readLiteral_parted literal (.start l) hn hc
    exact ⟨wanted, found, hne, hwanted, hfound, by rw [literalVerdict, he]; rfl⟩

/-- Wherever a literal is worked out, it matches exactly if the rest of the input begins with it, and then as itself
up to the place behind it. Otherwise it fails behind what it has in common with the rest. -/
theorem literal_reads (job : Job) (apply : Applier) (literal : List Char) (setting : Setting) (session : Session) :
    ∃ verdict, (evaluate job apply (.literal literal) setting).on session = (.settled verdict, session) ∧
      ReadsLiteral literal (setting.rest job.input) setting.location verdict :=
  ⟨_, rfl, readsLiteral_literalVerdict literal (setting.rest job.input) setting.location⟩

end Packrat
