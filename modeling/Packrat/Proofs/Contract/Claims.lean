/-
The places that results can claim. Without matchers from outside, a result stands at lines and columns that the text
has room for, or where an item of a fallback does. So there are only so many places, and a repetition that goes on
gets further among them. As long as it is allowed as many turns it ends by itself, wherever fallbacks claim to stand
and whatever patterns find.
-/
import Mathlib.Data.List.Count
import Mathlib.Tactic.Ring
import Packrat.Proofs.Contract.Progress

namespace Packrat

open Stance

/-! ## Lines and columns -/

/-- How many lines and columns lie before a place. In a text, each of them takes a character. -/
def Location.distance (l : Location) : Nat := l.line + l.column

theorem Scan.distance_run (s : Scan) : ∀ text : List Char, (s.run text).location.distance ≤ s.location.distance + text.length
  | [] => Nat.le_refl _
  | c :: text => by
    have hstep : (s.step c).location.distance ≤ s.location.distance + 1 := by
      unfold step Location.distance
      split
      · simp only
        omega
      · split
        · simp only
          omega
        · simp only
          omega
    have hrun := distance_run (s.step c) text
    rw [run_cons, List.length_cons]
    omega

theorem Location.distance_after (l : Location) (text : List Char) : (l.after text).distance ≤ l.distance + text.length :=
  Scan.distance_run (.start l) text

/-- Where not all of the text is taken, each line and column takes a character. -/
theorem le_length_takeLines {count column : Nat} {text : List Char} (h : (takeLines count column text).length < text.length) :
    count + column ≤ (takeLines count column text).length := by
  induction count generalizing text with
  | zero =>
    rw [takeLines, List.length_take] at h ⊢
    omega
  | succ count ih =>
    unfold takeLines at h ⊢
    split at h
    · exact absurd h (Nat.lt_irrefl _)
    · next line rest hs =>
      have hlt := length_lt_of_splitLine hs
      rw [splitLine_eq_some hs] at h hlt
      simp only [List.length_append] at h hlt ⊢
      have : count + column ≤ (takeLines count column rest).length := ih (by omega)
      omega

theorem distance_le_of_length_between {rest : List Char} {start stop : Location} (hlt : start < stop)
    (h : (between rest start stop).length < rest.length) :
    stop.distance ≤ start.distance + (between rest start stop).length := by
  have hn : ¬ stop ≤ start := by
    rw [Location.not_le]
    exact hlt
  rw [Location.lt_def] at hlt
  unfold Location.distance
  rw [between, if_neg hn] at h ⊢
  split at h
  · next hline =>
    rw [if_pos hline]
    have := le_length_takeLines h
    omega
  · next hline =>
    rw [if_neg hline]
    rw [List.length_take] at h ⊢
    omega

/-! ## Fallbacks -/

mutual

/-- The places where the items of a tree begin and end. -/
def Tree.claims : Tree → List Location
  | .list _ items => claimsAll items
  | .text .. | .found .. | .node .. => []

/-- The places where some trees and their items begin and end. -/
def Tree.claimsAll : List Tree → List Location
  | [] => []
  | t :: rest => t.extent.start :: t.extent.stop :: (t.claims ++ claimsAll rest)

end

mutual

/-- The places that the fallbacks in an expression claim. -/
def Expr.claims : Expr → List Location
  | .repetition body _ fallback => body.claims ++ fallback.elim [] Tree.claims
  | .sequence parts | .merge parts | .choice parts => claimsAll parts
  | .ahead body | .notAhead body | .omission body => body.claims
  | .literal _ | .pattern _ | .rule _ | .external _ => []

/-- The places that the fallbacks in some expressions claim. -/
def Expr.claimsAll : List Expr → List Location
  | [] => []
  | e :: rest => e.claims ++ claimsAll rest

end

/-- The places that the fallbacks of a grammar claim. -/
def Grammar.claims (g : Grammar) : List Location :=
  Expr.claimsAll (g.rules.map (·.2) ++ (g.skipper.toList ++ g.overrides.flatMap (·.2.toList)))

namespace Tree

theorem mem_claimsAll {items : List Tree} {t : Tree} (h : t ∈ items) :
    t.extent.start ∈ claimsAll items ∧ t.extent.stop ∈ claimsAll items ∧ t.claims ⊆ claimsAll items := by
  induction items with
  | nil => simp at h
  | cons u items ih =>
    rw [claimsAll]
    rcases List.mem_cons.1 h with rfl | h
    · refine ⟨by simp, by simp, fun l hl => ?_⟩
      simp [hl]
    · obtain ⟨hstart, hstop, hclaims⟩ := ih h
      refine ⟨by simp [hstart], by simp [hstop], fun l hl => ?_⟩
      simp [hclaims hl]

/-- A tree lies where it stands itself and where its items claim to. -/
theorem lies_of_claims {P : Location → Prop} : ∀ {t : Tree}, P t.extent.start → P t.extent.stop →
    (∀ l ∈ t.claims, P l) → t.Lies P
  | .text .., h1, h2, _ | .found .., h1, h2, _ | .node .., h1, h2, _ => .intro h1 h2 nofun
  | .list place items, h1, h2, h => by
    refine .intro h1 h2 ?_
    rintro _ ⟨⟩ item hm
    rw [claims] at h
    obtain ⟨hstart, hstop, hclaims⟩ := mem_claimsAll hm
    exact lies_of_claims (h _ hstart) (h _ hstop) fun l hl => h l (hclaims hl)
decreasing_by
  have := List.sizeOf_lt_of_mem hm
  simp only [list.sizeOf_spec]
  omega

@[simp] theorem claims_movedTo (t : Tree) (span : Span) : (t.movedTo span).claims = t.claims := by
  cases t <;> simp [movedTo, setPlace, claims]

mutual

/-- Each item of a fallback claims two places. -/
theorem length_claims : ∀ t : Tree, t.claims.length + 2 ≤ 2 * t.size
  | .text .. | .found .. => by simp [claims, size]
  | .list _ items => by
    rw [claims, size]
    have := length_claimsAll items
    omega
  | .node _ _ fields => by
    rw [claims, size, List.length_nil]
    omega

theorem length_claimsAll : ∀ items : List Tree, (claimsAll items).length ≤ 2 * sizeAll items
  | [] => by simp [claimsAll]
  | t :: rest => by
    have hfirst := length_claims t
    have hrest := length_claimsAll rest
    rw [claimsAll, sizeAll]
    simp only [List.length_cons, List.length_append]
    omega

end

end Tree

namespace Expr

theorem claims_of_mem {es : List Expr} {e : Expr} (h : e ∈ es) : e.claims ⊆ claimsAll es := by
  induction es with
  | nil => simp at h
  | cons d es ih =>
    rw [claimsAll]
    rcases List.mem_cons.1 h with rfl | h
    · exact List.subset_append_left _ _
    · exact List.Subset.trans (ih h) (List.subset_append_right _ _)

theorem claims_part {e part : Expr} (h : part ∈ e.parts) : part.claims ⊆ e.claims := by
  cases e with
  | sequence parts | merge parts | choice parts =>
    rw [claims]
    exact claims_of_mem h
  | repetition body bounds fallback =>
    rw [claims, List.mem_singleton.1 h]
    exact List.subset_append_left _ _
  | ahead body | notAhead body | omission body =>
    rw [claims, List.mem_singleton.1 h]
    exact List.Subset.refl _
  | literal | pattern | rule | external => simp [parts] at h

mutual

theorem length_claims : ∀ e : Expr, e.claims.length ≤ 2 * e.fallbackSize
  | .repetition body _ fallback => by
    have hbody := length_claims body
    rw [claims, fallbackSize, List.length_append]
    cases fallback with
    | none =>
      simp only [Option.elim_none, List.length_nil]
      omega
    | some t =>
      have := t.length_claims
      simp only [Option.elim_some]
      omega
  | .sequence parts | .merge parts | .choice parts => by
    rw [claims, fallbackSize]
    exact length_claimsAll parts
  | .ahead body | .notAhead body | .omission body => by
    rw [claims, fallbackSize]
    exact length_claims body
  | .literal _ | .pattern _ | .rule _ | .external _ => by simp [claims]

theorem length_claimsAll : ∀ es : List Expr, (claimsAll es).length ≤ 2 * fallbackSizeAll es
  | [] => by simp [claimsAll]
  | e :: rest => by
    have hfirst := length_claims e
    have hrest := length_claimsAll rest
    rw [claimsAll, fallbackSizeAll, List.length_append]
    omega

end

end Expr

/-- What an expression of the grammar claims, the grammar claims. -/
theorem Grammar.Has.claims {g : Grammar} {e : Expr} (h : g.Has e) : e.claims ⊆ g.claims := by
  induction h with
  | start => simp [Expr.claims]
  | body hb =>
    refine Expr.claims_of_mem (List.mem_append_left _ (List.mem_map.2 ⟨_, mem_of_lookup hb, rfl⟩))
  | skipper hs =>
    refine Expr.claims_of_mem (List.mem_append_right _ (List.mem_append_left _ ?_))
    rw [hs]
    exact List.mem_singleton_self _
  | override ho =>
    refine Expr.claims_of_mem (List.mem_append_right _ (List.mem_append_right _ ?_))
    exact List.mem_flatMap.2 ⟨_, mem_of_lookup ho, List.mem_singleton_self _⟩
  | part _ hp ih => exact List.Subset.trans (Expr.claims_part hp) ih

/-! ## The ground -/

variable {job : Job}

/-- The text has room for the place, or a fallback claims it. -/
def Job.Claims (job : Job) (l : Location) : Prop := l.distance ≤ job.input.length ∨ l ∈ job.grammar.claims

/-- Places that can be claimed, and positions there. As long as text is left behind a position, its lines and columns
are of the text before it. -/
def Job.claimed (job : Job) : Ground job.input where
  At p := p.offset ≤ job.input.length ∧ job.Claims p.location ∧ (p.offset < job.input.length → p.location.distance ≤ p.offset)
  Loc := job.Claims
  location h := h.2.1
  moveTo {p l} hp hl := by
    obtain ⟨hoffset, hclaims, hdistance⟩ := hp
    unfold Position.moveTo
    split
    · exact ⟨hoffset, hclaims, hdistance⟩
    · next hn =>
      have hlength : (p.rest job.input).length = job.input.length - p.offset := List.length_drop
      have hle : (between (p.rest job.input) p.location l).length ≤ (p.rest job.input).length :=
        List.IsPrefix.length_le <| between_prefix (p.rest job.input) p.location l
      refine ⟨by simp only; omega, hl, fun hlt => ?_⟩
      simp only at hlt ⊢
      have hbetween : l.distance ≤ p.location.distance + (between (p.rest job.input) p.location l).length :=
        distance_le_of_length_between (Location.not_le.1 hn) (by omega)
      have := hdistance (by omega)
      omega

/-- Reading some of the text ends where it can be claimed to. -/
theorem Job.claims_after {p : Position} (hp : job.claimed.At p) {text : List Char}
    (h : text.length ≤ (p.rest job.input).length) : job.Claims (p.location.after text) := by
  obtain ⟨hoffset, hclaims, hdistance⟩ := hp
  have hlength : (p.rest job.input).length = job.input.length - p.offset := List.length_drop
  have hafter := p.location.distance_after text
  rcases Nat.lt_or_ge p.offset job.input.length with hlt | hge
  · have := hdistance hlt
    exact .inl (by omega)
  · obtain rfl : text = [] := List.eq_nil_of_length_eq_zero (by omega)
    exact hclaims

theorem Job.claimed_of_sits {p : Position} (hp : p.Sits job.input) : job.claimed.At p := by
  have hdistance : p.location.distance ≤ p.offset := by
    obtain ⟨before, -, ho, hl, -⟩ := hp
    have := Location.origin.distance_after before
    rw [hl, ho]
    simpa [Location.origin, Location.distance] using this
  exact ⟨hp.offset_le, .inl (Nat.le_trans hdistance hp.offset_le), fun _ => hdistance⟩

/-- Without matchers from outside, all that leaves find and fallbacks stand for is claimed. -/
theorem Job.claimed_bears (hc : ∀ key, ¬ job.grammar.Has (.external key)) : job.claimed.Bears job where
  literal text p hp := by
    unfold literalVerdict
    split
    · next stop h =>
      obtain ⟨hpre, rfl⟩ := (readLiteral_eq_ok _ _ _ _ _).1 h
      exact .intro hp.2.1 (job.claims_after hp hpre.length_le) nofun
    · trivial
  pattern {pattern p} _ hp := by
    unfold patternVerdict
    split
    · next groups h => exact .intro hp.2.1 (job.claims_after hp (Regex.Engine.length_le _ h)) nofun
    · trivial
  external he := absurd he (hc _)
  fallback {body bounds t p} hhas hp := by
    have hput : job.claimed.Loc p.location := hp.2.1
    refine Tree.lies_of_claims (by simpa [Span.empty] using hput) (by simpa [Span.empty] using hput) fun l hl => .inr ?_
    refine hhas.claims ?_
    rw [Expr.claims]
    exact List.mem_append_right _ (by simpa using hl)

/-! ## Counting places -/

/-- All places that can be claimed. -/
def Job.places (job : Job) : List Location :=
  ((List.range (job.input.length + 1)).flatMap fun line => (List.range (job.input.length + 1)).map (Location.mk line)) ++
    job.grammar.claims

theorem Job.Claims.mem_places {l : Location} (h : job.Claims l) : l ∈ job.places := by
  rcases h with h | h
  · obtain ⟨line, column⟩ := l
    simp only [Location.distance] at h
    refine List.mem_append_left _ (List.mem_flatMap.2 ⟨line, List.mem_range.2 (by omega), ?_⟩)
    exact List.mem_map.2 ⟨column, List.mem_range.2 (by omega), rfl⟩
  · exact List.mem_append_right _ h

theorem Job.length_places :
    job.places.length = (job.input.length + 1) * (job.input.length + 1) + job.grammar.claims.length := by
  unfold places
  rw [List.length_append, List.length_flatMap]
  simp

/-- How many of them lie ahead. -/
def Job.placesAhead (job : Job) (l : Location) : Nat := job.places.countP (l < ·)

/-- Fewer places lie ahead of one that is further on. -/
theorem Job.placesAhead_lt {l l' : Location} (hl' : job.Claims l') (h : l < l') : job.placesAhead l' < job.placesAhead l := by
  obtain ⟨before, after, hplaces⟩ := List.append_of_mem hl'.mem_places
  have hmono (places : List Location) : places.countP (l' < ·) ≤ places.countP (l < ·) :=
    List.countP_mono_left fun k _ hk => by
      simp only [decide_eq_true_eq] at hk ⊢
      exact Location.lt_of_lt_of_le h (Location.le_of_lt hk)
  unfold placesAhead
  rw [hplaces]
  simp only [List.countP_append, List.countP_cons, decide_eq_true_eq, if_pos h, if_neg (Location.lt_irrefl l')]
  have := hmono before
  have := hmono after
  omega

/-- Loops are allowed as many turns as there are places. -/
def Job.Roomy (job : Job) : Prop := job.places.length ≤ job.slack

theorem Job.Roomy.placesAhead_le (h : job.Roomy) (l : Location) : job.placesAhead l ≤ job.slack :=
  Nat.le_trans List.countP_le_length h

/-- As many turns are allowed in parsing a text with a grammar, as far as its skippers come into effect. -/
theorem Job.roomy_new (g : Grammar) (options : Options) (externals : Externals) (input : List Char) :
    (Job.new g.inEffect (.rule g.start) options externals input).Roomy := by
  have hclaims : g.inEffect.claims.length ≤ 2 * g.inEffect.fallbackSize (.rule g.start) := by
    unfold Grammar.claims Grammar.fallbackSize
    rw [g.skippersFrom_inEffect, g.skippersFrom_start]
    exact Expr.length_claimsAll (.rule g.start :: (g.rules.map (·.2) ++ (g.inEffect.skipper.toList ++ _)))
  unfold Roomy
  rw [length_places]
  show (input.length + 1) * (input.length + 1) + g.inEffect.claims.length ≤
    placesPastEnd input.length (g.inEffect.fallbackSize (.rule g.start)) + externals.places
  refine Nat.le_trans ?_ (Nat.le_add_right _ _)
  unfold placesPastEnd
  generalize g.inEffect.fallbackSize (.rule g.start) = size at hclaims ⊢
  have hsquare : 1 ≤ (input.length + 1) * (input.length + 1) := Nat.mul_pos (Nat.succ_pos _) (Nat.succ_pos _)
  have hsize := Nat.le_mul_of_pos_left size hsquare
  calc (input.length + 1) * (input.length + 1) + g.inEffect.claims.length
      ≤ 16 * ((input.length + 1) * (input.length + 1) * size) + 16 * ((input.length + 1) * (input.length + 1)) := by omega
    _ = 4 * (input.length + 1) * (4 * (input.length + 1)) * (size + 1) := by ring

end Packrat
