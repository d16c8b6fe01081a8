import Fluxion.Json.Reading
import Fluxion.Proofs.Json.Lexemes

/-!
# Values that were written

Whatever value is written as JSON, its text is read as that value (`Json.read?_toText`), provided that
its numbers are JSON numbers and its strings are made of characters and of halves of surrogate pairs
(`Json.IsProper`). The reader is followed through the text of a value inside any arrays and objects that
are open around it: from where a value must come it arrives, at the end of the text, where it holds that
value (`Json.IsProper.leads`).
-/

namespace Fluxion.Json

/-- The numbers of a value are JSON numbers, and its strings are made of proper pieces. -/
inductive IsProper : Json → Prop
  /-- The null value. -/
  | null : IsProper .null
  /-- A truth value. -/
  | bool (value : Bool) : IsProper (.bool value)
  /-- A number whose literal is read as one, to its end. -/
  | number {literal : List Char} (h : number? literal = some (literal, [])) :
    IsProper (.number literal)
  /-- A string of proper pieces. -/
  | string {content : List Piece} (h : ∀ piece ∈ content, piece.IsProper) :
    IsProper (.string content)
  /-- An array of proper values. -/
  | array {items : List Json} (h : ∀ item ∈ items, IsProper item) : IsProper (.array items)
  /-- An object of proper names and values. -/
  | object {members : List (List Piece × Json)}
    (hnames : ∀ member ∈ members, ∀ piece ∈ member.1, piece.IsProper)
    (hvalues : ∀ member ∈ members, IsProper member.2) : IsProper (.object members)

namespace Progress

variable {p p' : Progress} {frames : List Frame} {c : Char} {text rest : List Char}
  {lexeme : Lexeme} {value : Json}

/-! ### Reading on -/

/-- The value that a text completes when it is read from some progress on. -/
def complete? (p : Progress) (text : List Char) : Option Json := do
  (← (← lexemes? text).foldlM step p).result?

theorem complete?_cons (hblank : isBlank c = false) (h : lexeme? c text = some (lexeme, rest))
    (hstep : p.step lexeme = some p') : p.complete? (c :: text) = p'.complete? rest := by
  rw [complete?, complete?, lexemes?_cons hblank h]
  cases lexemes? rest with
  | none => rfl
  | some lexemes =>
    simp only [Option.map_some, Option.bind_eq_bind, Option.bind_some, List.foldlM_cons, hstep]

/-- A value may begin here, inside the given frames. -/
def Awaits (p : Progress) (frames : List Frame) : Prop :=
  ∀ lexeme, lexeme ≠ .closeArray → p.step lexeme = beginValue frames lexeme

theorem awaits_wantsValue (frames : List Frame) : (wantsValue frames).Awaits frames :=
  fun _ _ => rfl

theorem awaits_wantsItem (frames : List Frame) : (wantsItem frames).Awaits (.array [] :: frames) := by
  intro lexeme hne
  cases lexeme with
  | closeArray => exact absurd rfl hne
  | _ => rfl

/-! ### Values -/

/-- Wherever a value may begin, the text of this one leads to where it is held. -/
def Leads (value : Json) : Prop :=
  ∀ {p : Progress} {frames : List Frame} {rest : List Char}, p.Awaits frames → EndsNumber rest →
    p.complete? (value.write ++ rest) = (holds value frames).complete? rest

theorem leads_number {literal : List Char} (h : number? literal = some (literal, [])) :
    Leads (.number literal) := by
  intro p frames rest hp hrest
  obtain ⟨c, text, rfl⟩ : ∃ c text, literal = c :: text :=
    List.exists_cons_of_ne_nil (by rintro rfl; cases h)
  have hblank : isBlank c = false := by
    have hheads : numberHeads.all (fun d => !isBlank d) = true := rfl
    simpa using List.all_eq_true.mp hheads c (mem_numberHeads h)
  exact complete?_cons hblank (lexeme?_number h hrest) (hp _ nofun)

theorem complete?_writeString {name : List Piece} (hname : ∀ piece ∈ name, piece.IsProper)
    (hp : p.step (.string name) = some p') (rest : List Char) :
    p.complete? (writeString name ++ rest) = p'.complete? rest := by
  rw [writeString, List.append_assoc, List.cons_append]
  exact complete?_cons rfl (lexeme?_string hname rest) hp

/-! ### Items and members -/

theorem endsNumber_writeItems (items : List Json) (rest : List Char) :
    EndsNumber (writeItems items ++ rest) := by
  cases items <;> rintro c ⟨rfl⟩ <;> decide

theorem endsNumber_writeMembers (members : List (List Piece × Json)) (rest : List Char) :
    EndsNumber (writeMembers members ++ rest) := by
  cases members <;> rintro c ⟨rfl⟩ <;> decide

/-- The rest of an array, behind one of its items. -/
theorem complete?_writeItems {items : List Json} (h : ∀ item ∈ items, Leads item) (value : Json)
    (before : List Json) (frames : List Frame) (rest : List Char) :
    (holds value (.array before :: frames)).complete? (writeItems items ++ rest) =
      (holds (.array (before.reverse ++ value :: items)) frames).complete? rest := by
  induction items generalizing value before with
  | nil =>
    have hstep : (holds value (.array before :: frames)).step .closeArray =
        some (holds (.array (before.reverse ++ [value])) frames) := by
      simp only [step, goOn, List.reverse_cons]
    exact complete?_cons rfl rfl hstep
  | cons item items ih =>
    rw [List.forall_mem_cons] at h
    have hcomma : (holds value (.array before :: frames)).complete?
        (',' :: item.write ++ writeItems items ++ rest) =
        (wantsValue (.array (value :: before) :: frames)).complete?
          (item.write ++ writeItems items ++ rest) := complete?_cons rfl rfl rfl
    rw [writeItems, hcomma, List.append_assoc,
      h.1 (awaits_wantsValue _) (endsNumber_writeItems items rest), ih h.2, List.reverse_cons,
      List.append_assoc, List.singleton_append]

/-- A member of an object, where its name may stand. -/
theorem complete?_member {members : List (List Piece × Json)} {name : List Piece}
    (hname : ∀ piece ∈ name, piece.IsProper) (h : Leads value)
    (hp : p.step (.string name) = some (wantsColon members name frames)) (hrest : EndsNumber rest) :
    p.complete? (writeString name ++ ':' :: value.write ++ rest) =
      (holds value (.object members name :: frames)).complete? rest := by
  have hcolon : (wantsColon members name frames).complete? (':' :: (value.write ++ rest)) =
      (wantsValue (.object members name :: frames)).complete? (value.write ++ rest) :=
    complete?_cons rfl rfl rfl
  rw [List.append_assoc, List.cons_append, complete?_writeString hname hp, hcolon]
  exact h (awaits_wantsValue _) hrest

/-- The rest of an object, behind one of its members. -/
theorem complete?_writeMembers {members : List (List Piece × Json)}
    (hnames : ∀ member ∈ members, ∀ piece ∈ member.1, piece.IsProper)
    (h : ∀ member ∈ members, Leads member.2) (value : Json) (before : List (List Piece × Json))
    (name : List Piece) (frames : List Frame) (rest : List Char) :
    (holds value (.object before name :: frames)).complete? (writeMembers members ++ rest) =
      (holds (.object (before.reverse ++ (name, value) :: members)) frames).complete? rest := by
  induction members generalizing value before name with
  | nil =>
    have hstep : (holds value (.object before name :: frames)).step .closeObject =
        some (holds (.object (before.reverse ++ [(name, value)])) frames) := by
      simp only [step, goOn, List.reverse_cons]
    exact complete?_cons rfl rfl hstep
  | cons member members ih =>
    obtain ⟨name', value'⟩ := member
    rw [List.forall_mem_cons] at hnames h
    have hcomma : (holds value (.object before name :: frames)).complete?
        (',' :: writeString name' ++ ':' :: value'.write ++ writeMembers members ++ rest) =
        (wantsName ((name, value) :: before) frames).complete?
          (writeString name' ++ ':' :: value'.write ++ writeMembers members ++ rest) :=
      complete?_cons rfl rfl rfl
    rw [writeMembers, hcomma, List.append_assoc,
      complete?_member hnames.1 h.1 rfl (endsNumber_writeMembers members rest), ih hnames.2 h.2,
      List.reverse_cons, List.append_assoc, List.singleton_append]

end Progress

open Progress

/-- **The text of a value leads to it**, wherever a value may begin. -/
theorem IsProper.leads {value : Json} (h : value.IsProper) : Leads value := by
  induction h with
  | null => exact fun hp _ => complete?_cons rfl rfl (hp _ nofun)
  | bool value => cases value <;> exact fun hp _ => complete?_cons rfl rfl (hp _ nofun)
  | number h => exact leads_number h
  | string h => exact fun hp _ => complete?_writeString h (hp _ nofun) _
  | @array items _ ih =>
    intro p frames rest hp _
    cases items with
    | nil =>
      have hopen : p.complete? ('[' :: ']' :: rest) = (wantsItem frames).complete? (']' :: rest) :=
        complete?_cons rfl rfl (hp _ nofun)
      rw [write]
      exact hopen.trans (complete?_cons rfl rfl rfl)
    | cons item items =>
      rw [List.forall_mem_cons] at ih
      have hopen : p.complete? ('[' :: item.write ++ writeItems items ++ rest) =
          (wantsItem frames).complete? (item.write ++ writeItems items ++ rest) :=
        complete?_cons rfl rfl (hp _ nofun)
      rw [write, hopen, List.append_assoc, ih.1 (awaits_wantsItem _) (endsNumber_writeItems items rest)]
      exact complete?_writeItems ih.2 item [] frames rest
  | @object members hnames _ ih =>
    intro p frames rest hp _
    cases members with
    | nil =>
      have hopen : p.complete? ('\x7b' :: '\x7d' :: rest) =
          (wantsMember frames).complete? ('\x7d' :: rest) := complete?_cons rfl rfl (hp _ nofun)
      rw [write]
      exact hopen.trans (complete?_cons rfl rfl rfl)
    | cons member members =>
      obtain ⟨name, value⟩ := member
      rw [List.forall_mem_cons] at hnames ih
      have hopen : p.complete?
          ('\x7b' :: writeString name ++ ':' :: value.write ++ writeMembers members ++ rest) =
          (wantsMember frames).complete?
            (writeString name ++ ':' :: value.write ++ writeMembers members ++ rest) :=
        complete?_cons rfl rfl (hp _ nofun)
      rw [write, hopen, List.append_assoc,
        complete?_member hnames.1 ih.1 rfl (endsNumber_writeMembers members rest)]
      exact complete?_writeMembers hnames.2 ih.2 value [] name frames rest

/-- **What is written of a value is read as that value.** -/
theorem read?_toText {value : Json} (h : value.IsProper) : read? value.toText = some value := by
  have hend : EndsNumber [] := nofun
  have hread : read? value.toText = (wantsValue []).complete? (value.write ++ []) := by
    rw [read?, toText, String.toList_ofList, List.append_nil]
    rfl
  rw [hread, h.leads (awaits_wantsValue []) hend, complete?, lexemes?]
  rfl

end Fluxion.Json
