import Mathlib.Data.List.DropRight
import SolidityAtlas.Import.Remapping

/-!
# Written forms of remappings

A text is read as a remapping if it is one of its written forms (`Remapping.parse_eq_ok_iff`).
A remapping without a context has two of them, one with a colon in front and one without. The
form that is displayed is the one without. Where the front begins with a blank or has a colon
in it, only the form with the colon is a written form of this remapping, and what is displayed
is read as something else, or as nothing.

## Main Definitions

* `IsTrimmed`: rows of characters without blanks at the ends
* `Remapping.Writes`: the written forms of a remapping
* `Remapping.ShowsItself`: the remappings whose displayed form is one of their written forms

## Main Results

* `Remapping.parse_eq_ok_iff`: what is read
* `Remapping.parse_display_iff`: the remappings that are read back as they are displayed
-/

namespace SolidityAtlas

/-! ## Cuts and trimmed rows -/

section Cut

variable {sep : Char} {cs before behind : List Char}

/-- A text is cut at the first separator. -/
theorem cutOnce?_append_cons (h : sep ∉ before) (behind : List Char) :
    cutOnce? sep (before ++ sep :: behind) = some (before, behind) := by
  induction before with
  | nil => rw [List.nil_append, cutOnce?, if_pos rfl]
  | cons c before ih =>
      obtain ⟨hc, hbefore⟩ := not_or.1 (mt List.mem_cons.2 h)
      rw [List.cons_append, cutOnce?, if_neg (Ne.symm hc), ih hbefore, Option.map_some]

/-- Only a text without the separator is not cut. -/
theorem cutOnce?_eq_none_iff : cutOnce? sep cs = none ↔ sep ∉ cs := by
  induction cs with
  | nil => exact ⟨fun _ => List.not_mem_nil, fun _ => rfl⟩
  | cons c cs ih =>
      rw [cutOnce?, List.mem_cons, not_or]
      by_cases hc : c = sep
      · rw [if_pos hc]
        exact iff_of_false (Option.some_ne_none _) fun h => h.1 hc.symm
      · rw [if_neg hc, Option.map_eq_none_iff, ih]
        exact ⟨fun h => ⟨Ne.symm hc, h⟩, fun h => h.2⟩

/-- A row is cut at the first separator. -/
theorem cutOnce?_eq_some_iff :
    cutOnce? sep cs = some (before, behind) ↔ cs = before ++ sep :: behind ∧ sep ∉ before := by
  constructor
  · intro h
    have hsplit := eq_append_of_cutOnce? h
    refine ⟨hsplit, ?_⟩
    induction before generalizing cs with
    | nil => exact List.not_mem_nil
    | cons c before ih =>
        rw [hsplit, List.cons_append, cutOnce?] at h
        split at h
        · cases h
        · rename_i hc
          obtain ⟨⟨b, r⟩, hcut, heq⟩ := Option.map_eq_some_iff.1 h
          obtain ⟨hb, hr⟩ := Prod.mk.inj heq
          obtain ⟨-, rfl⟩ := List.cons.inj hb
          rw [hr] at hcut
          exact fun hmem => (List.mem_cons.1 hmem).elim (fun heq => hc heq.symm) (ih hcut rfl)
  · rintro ⟨rfl, hbefore⟩
    exact cutOnce?_append_cons hbefore behind

end Cut

/-- No blank stands at either end. -/
def IsTrimmed (cs : List Char) : Prop :=
  (∀ c ∈ cs.head?, isBlank c = false) ∧ ∀ c ∈ cs.getLast?, isBlank c = false

section Trimmed

variable {cs : List Char}

/-- Nothing is dropped from a text that starts with another character. -/
theorem dropWhile_eq_self_of_head? {p : Char → Bool} (h : ∀ c ∈ cs.head?, p c = false) :
    cs.dropWhile p = cs := by
  cases cs with
  | nil => rfl
  | cons c cs => exact List.dropWhile_cons_of_neg (Bool.eq_false_iff.1 (h c rfl))

/-- What is left does not start with a character that is dropped. -/
theorem head?_dropWhile {p : Char → Bool} : ∀ c ∈ (cs.dropWhile p).head?, p c = false := by
  induction cs with
  | nil => exact fun _ h => nomatch h
  | cons c cs ih =>
      rw [List.dropWhile_cons]
      split
      · exact ih
      · rename_i hc
        rintro _ ⟨⟩
        exact Bool.eq_false_iff.2 hc

/-- Trimming keeps what is trimmed. -/
theorem trimBlank_eq_self (h : IsTrimmed cs) : trimBlank cs = cs := by
  rw [trimBlank, dropWhile_eq_self_of_head? h.1,
    dropWhile_eq_self_of_head? (by rw [List.head?_reverse]; exact h.2), List.reverse_reverse]

/-- What has been trimmed is trimmed. -/
theorem isTrimmed_trimBlank (cs : List Char) : IsTrimmed (trimBlank cs) := by
  have hfront : trimBlank cs <+: cs.dropWhile isBlank := List.rdropWhile_prefix isBlank _
  constructor
  · intro c hc
    obtain ⟨row, hrow⟩ := List.head?_eq_some_iff.1 hc
    obtain ⟨behind, hbehind⟩ := hfront
    have hfirst : ∀ d ∈ (cs.dropWhile isBlank).head?, isBlank d = false := head?_dropWhile
    refine hfirst c ?_
    rw [← hbehind, hrow]
    rfl
  · intro c hc
    rw [trimBlank, List.getLast?_reverse] at hc
    exact head?_dropWhile c hc

theorem length_trimBlank_le (cs : List Char) : (trimBlank cs).length ≤ cs.length :=
  (List.rdropWhile_prefix isBlank _).length_le.trans (List.dropWhile_suffix isBlank).length_le

end Trimmed

namespace Remapping

/-! ## Reading -/

/-- What may stand before the equals sign of a remapping. -/
inductive Leads (r : Remapping) : List Char → Prop
  | plain (hcontext : r.context = none) (hfront : ':' ∉ r.front.toList) : Leads r r.front.toList
  | emptyContext (hcontext : r.context = none) : Leads r (':' :: r.front.toList)
  | context (place : String) (hcontext : r.context = some place) (hne : place ≠ "")
      (hplace : ':' ∉ place.toList) : Leads r (place.toList ++ ':' :: r.front.toList)

/-- The written forms of a remapping. -/
structure Writes (entry : List Char) (r : Remapping) : Prop where
  front_ne : r.front ≠ ""
  target_ne : r.target ≠ ""
  cut : ∃ lead, r.Leads lead ∧ '=' ∉ lead ∧ entry = lead ++ '=' :: r.target.toList

variable {entry front target : List Char} {r : Remapping} {text : String}

/-- The parts that make a remapping: a front, a target, and perhaps a context, none of them
empty. -/
theorem ofParts?_eq_some_iff {context : Option (List Char)} :
    ofParts? context front target = some r ↔
      r.front.toList = front ∧ r.target.toList = target ∧ r.front ≠ "" ∧ r.target ≠ "" ∧
        r.context = (context.filter fun c => ! c.isEmpty).map String.ofList := by
  have hempty : ∀ s : String, s ≠ "" ↔ s.toList.isEmpty = false := fun s => by
    rw [List.isEmpty_eq_false_iff, ne_eq, ne_eq, String.toList_eq_nil_iff]
  rw [ofParts?, hempty, hempty]
  constructor
  · intro h
    split at h
    · cases h
    · rename_i hne
      obtain ⟨hfront, htarget⟩ := Bool.or_eq_false_iff.1 (Bool.eq_false_iff.2 hne)
      obtain rfl := Option.some.inj h
      simp only [String.toList_ofList]
      exact ⟨trivial, trivial, hfront, htarget, trivial⟩
  · rintro ⟨rfl, rfl, hfront, htarget, hcontext⟩
    rw [hfront, htarget, Bool.or_false, if_neg Bool.false_ne_true, String.ofList_toList,
      String.ofList_toList, ← hcontext]

/-- A row of characters is read as a remapping if it is one of its written forms. -/
theorem ofChars?_eq_some_iff : ofChars? entry = some r ↔ r.Writes entry := by
  rw [ofChars?, Option.bind_eq_some_iff]
  constructor
  · rintro ⟨⟨lead, target⟩, hcut, hread⟩
    obtain ⟨hentry, hlead⟩ := cutOnce?_eq_some_iff.1 hcut
    cases hcolon : cutOnce? ':' lead with
    | none =>
        simp only [hcolon] at hread
        obtain ⟨rfl, rfl, hfront, htarget, hcontext⟩ := ofParts?_eq_some_iff.1 hread
        exact ⟨hfront, htarget, _, .plain hcontext (cutOnce?_eq_none_iff.1 hcolon), hlead, hentry⟩
    | some parts =>
        obtain ⟨place, front⟩ := parts
        simp only [hcolon] at hread
        obtain ⟨rfl, rfl, hfront, htarget, hcontext⟩ := ofParts?_eq_some_iff.1 hread
        obtain ⟨rfl, hplace⟩ := cutOnce?_eq_some_iff.1 hcolon
        refine ⟨hfront, htarget, _, ?_, hlead, hentry⟩
        cases place with
        | nil => exact .emptyContext hcontext
        | cons c place =>
            have hleads := Leads.context (String.ofList (c :: place)) hcontext (by simp)
              (by rwa [String.toList_ofList])
            rwa [String.toList_ofList] at hleads
  · rintro ⟨hfront, htarget, lead, hleads, hlead, rfl⟩
    refine ⟨_, cutOnce?_append_cons hlead _, ?_⟩
    cases hleads with
    | plain hcontext hcolon =>
        simp only [cutOnce?_eq_none_iff.2 hcolon]
        exact ofParts?_eq_some_iff.2 ⟨rfl, rfl, hfront, htarget, hcontext⟩
    | emptyContext hcontext =>
        exact ofParts?_eq_some_iff.2 ⟨rfl, rfl, hfront, htarget, hcontext⟩
    | context place hcontext hne hplace =>
        simp only [cutOnce?_append_cons hplace]
        refine ofParts?_eq_some_iff.2 ⟨rfl, rfl, hfront, htarget, ?_⟩
        have hfull : place.toList.isEmpty = false := by
          rw [List.isEmpty_eq_false_iff, ne_eq, String.toList_eq_nil_iff]
          exact hne
        rw [hcontext, Option.filter_some, hfull, Bool.not_false, if_pos rfl, Option.map_some,
          String.ofList_toList]

/-- A text is read as a remapping if it is one of its written forms, up to blanks at the ends. -/
theorem parse_eq_ok_iff : parse text = .ok r ↔ r.Writes (trimBlank text.toList) := by
  rw [← ofChars?_eq_some_iff, parse]
  cases ofChars? (trimBlank text.toList) with
  | none => exact ⟨(nomatch ·), (nomatch ·)⟩
  | some s => rw [Except.ok.injEq, Option.some.injEq]

/-! ## Displaying -/

/-- The displayed form is one of the written forms. -/
def ShowsItself (r : Remapping) : Prop :=
  r.context = none → ':' ∉ r.front.toList ∧ ∀ c ∈ r.front.toList.head?, isBlank c = false

instance (r : Remapping) : Decidable r.ShowsItself :=
  inferInstanceAs (Decidable (_ → _ ∧ ∀ c ∈ r.front.toList.head?, _))

/-- A remapping without a context is shown without a colon in front. -/
theorem toList_display_of_none (h : r.context = none) :
    r.display.toList = r.front.toList ++ '=' :: r.target.toList := by
  rw [display, h]
  simp

/-- A remapping with a context is shown with a colon behind it. -/
theorem toList_display_of_some {place : String} (h : r.context = some place) :
    r.display.toList = place.toList ++ ':' :: r.front.toList ++ '=' :: r.target.toList := by
  rw [display, h]
  simp

/-- What is displayed is a written form of the remapping, or it lacks the colon of the empty
context. -/
theorem Writes.eq_display {entry : List Char} (h : r.Writes entry) :
    entry = r.display.toList ∧ (r.context = none → ':' ∉ r.front.toList) ∨
      entry = ':' :: r.display.toList ∧ r.context = none := by
  obtain ⟨-, -, lead, hleads, -, rfl⟩ := h
  cases hleads with
  | plain hcontext hcolon => exact .inl ⟨(toList_display_of_none hcontext).symm, fun _ => hcolon⟩
  | emptyContext hcontext =>
      exact .inr ⟨by rw [toList_display_of_none hcontext, List.cons_append], hcontext⟩
  | context place hcontext hne hplace =>
      refine .inl ⟨(toList_display_of_some hcontext).symm, fun hnone => ?_⟩
      rw [hcontext] at hnone
      cases hnone

/-- The equals sign of a remapping is the first one in each of its written forms. -/
theorem Writes.equals_not_mem {entry : List Char} (h : r.Writes entry) : '=' ∉ r.front.toList := by
  obtain ⟨-, -, lead, hleads, hequals, -⟩ := h
  cases hleads with
  | plain hcontext hcolon => exact hequals
  | emptyContext hcontext => exact fun hmem => hequals (List.mem_cons_of_mem _ hmem)
  | context place hcontext hne hplace =>
      exact fun hmem => hequals (List.mem_append_right _ (List.mem_cons_of_mem _ hmem))

/-- Without a context the displayed form begins as the front does. -/
theorem mem_head?_display {c : Char} (hcontext : r.context = none) (h : c ∈ r.front.toList.head?) :
    c ∈ r.display.toList.head? := by
  rw [toList_display_of_none hcontext, List.head?_append, Option.mem_def.1 h]
  rfl

/-- The displayed form of what was read is read back if it is a written form. -/
theorem Writes.parse_display {entry : List Char} (h : r.Writes entry) (htrimmed : IsTrimmed entry)
    (hself : r.ShowsItself) : parse r.display = .ok r := by
  rw [parse_eq_ok_iff]
  rcases h.eq_display with ⟨rfl, -⟩ | ⟨rfl, hcontext⟩
  · rwa [trimBlank_eq_self htrimmed]
  · obtain ⟨hcolon, hblank⟩ := hself hcontext
    have hdisplay := toList_display_of_none hcontext
    have hends : IsTrimmed r.display.toList := by
      refine ⟨fun c hc => ?_, fun c hc => htrimmed.2 c ?_⟩
      · cases hfront : r.front.toList with
        | nil => exact absurd (String.toList_eq_nil_iff.1 hfront) h.front_ne
        | cons d front =>
            rw [hdisplay, hfront] at hc
            rw [hfront] at hblank
            exact hblank c hc
      · rw [List.getLast?_cons, Option.mem_def.1 hc]
        rfl
    rw [trimBlank_eq_self hends, hdisplay]
    exact ⟨h.front_ne, h.target_ne, _, .plain hcontext hcolon, h.equals_not_mem, rfl⟩

/-- What is read back is a written form. -/
theorem showsItself_of_parse_display (h : parse r.display = .ok r) : r.ShowsItself := by
  rw [parse_eq_ok_iff] at h
  have htrimmed := isTrimmed_trimBlank r.display.toList
  have hlength := length_trimBlank_le r.display.toList
  intro hcontext
  rcases h.eq_display with ⟨heq, hcolon⟩ | ⟨heq, -⟩
  · rw [heq] at htrimmed
    exact ⟨hcolon hcontext, fun c hc => htrimmed.1 c (mem_head?_display hcontext hc)⟩
  · rw [heq, List.length_cons] at hlength
    omega

/-- With the colon of the empty context every remapping without a context has a written form. -/
theorem Writes.parse_colon_display {entry : List Char} (h : r.Writes entry)
    (htrimmed : IsTrimmed entry) (hcontext : r.context = none) :
    parse (":" ++ r.display) = .ok r := by
  have hdisplay : (":" ++ r.display).toList = ':' :: r.display.toList := String.toList_append
  have hends : IsTrimmed (':' :: r.display.toList) := by
    constructor
    · rintro _ ⟨⟩
      rfl
    · rcases h.eq_display with ⟨rfl, -⟩ | ⟨rfl, -⟩
      · have hlast : (':' :: r.display.toList).getLast? = r.display.toList.getLast? := by
          rw [toList_display_of_none hcontext, ← List.cons_append, List.getLast?_append_cons,
            List.getLast?_append_cons]
        rw [hlast]
        exact htrimmed.2
      · exact htrimmed.2
  rw [parse_eq_ok_iff, hdisplay, trimBlank_eq_self hends, toList_display_of_none hcontext]
  refine ⟨h.front_ne, h.target_ne, _, .emptyContext hcontext, fun hmem => ?_, rfl⟩
  rcases List.mem_cons.1 hmem with heq | hmem
  · exact absurd heq (by decide)
  · exact h.equals_not_mem hmem

/-- A row of remappings is read back if each of them is. -/
theorem mapM_parse_display_iff {rs : List Remapping} :
    (rs.map display).mapM parse = .ok rs ↔ ∀ r ∈ rs, parse r.display = .ok r := by
  induction rs with
  | nil => exact ⟨fun _ _ hmem => absurd hmem List.not_mem_nil, fun _ => rfl⟩
  | cons r rs ih =>
      rw [List.map_cons, List.mapM_cons, List.forall_mem_cons, ← ih]
      cases parse r.display with
      | error failure => exact ⟨(nomatch ·), fun h => nomatch h.1⟩
      | ok s =>
          cases (rs.map display).mapM parse with
          | error failure => exact ⟨(nomatch ·), fun h => nomatch h.2⟩
          | ok ss =>
              simp only [bind, Except.bind, pure, Except.pure, Except.ok.injEq, List.cons.injEq]

/-- **What is displayed is read back as the same remapping, unless the remapping has no context
and its front has a colon in it or begins with a blank.** Such a remapping is only written with
the colon of an empty context, and that colon is not displayed. A row of remappings is read back
if each of them is. -/
theorem parse_display_iff (text : String) (rs : List Remapping) :
    (∀ r, parse text = .ok r → (parse r.display = .ok r ↔ r.ShowsItself) ∧
      (r.context = none → parse (":" ++ r.display) = .ok r)) ∧
    ((∀ r ∈ rs, ∃ entry, parse entry = .ok r) →
      ((rs.map display).mapM parse = .ok rs ↔ ∀ r ∈ rs, r.ShowsItself)) := by
  have hiff : ∀ entry r, parse entry = .ok r → (parse r.display = .ok r ↔ r.ShowsItself) :=
    fun entry r h => ⟨showsItself_of_parse_display,
      (parse_eq_ok_iff.1 h).parse_display (isTrimmed_trimBlank _)⟩
  refine ⟨fun r h => ⟨hiff text r h, fun hcontext => ?_⟩, fun hread => ?_⟩
  · exact (parse_eq_ok_iff.1 h).parse_colon_display (isTrimmed_trimBlank _) hcontext
  · rw [mapM_parse_display_iff]
    refine forall₂_congr fun r hr => ?_
    obtain ⟨entry, h⟩ := hread r hr
    exact hiff entry r h

/-- Not every remapping is read again from what it is shown as: `:b:c=t` is shown as `b:c=t`. -/
theorem not_parse_display_emptyContext :
    ¬ ∀ (text : String) (r : Remapping), parse text = .ok r → parse r.display = .ok r := fun h =>
  absurd (h ":b:c=t" ⟨none, "b:c", "t"⟩ (by decide)) (by decide)

end Remapping

end SolidityAtlas
