import Fluxion.Derivation.Json
import Fluxion.Proofs.Binary64.Whole
import Fluxion.Proofs.Json.Values
import Fluxion.Token.Json

/-!
# What is kept and what travels

A derivation is kept as JSON text, and tokens travel as JSON text. Nothing is lost on the way: a text is
read as the derivation that it was written for, whatever its three texts hold
(`Derivation.ofJsonText?_toJsonText`), and as the tokens that it was written for, whatever their kinds
and texts, if their offsets are below `2 ^ 64` (`Token.listOfJsonText?_listToJsonText`). In both cases
the text is first read as the JSON value that was written, which only asks that the value be proper; and
then the fields are looked up in an object in which each name occurs once.
-/

namespace Fluxion

/-- A list is read back where each of its entries is. -/
theorem mapM_map_eq_some {α β γ : Type} {f : β → Option γ} {g : α → β} {k : α → γ} {as : List α}
    (h : ∀ a ∈ as, f (g a) = some (k a)) : (as.map g).mapM f = some (as.map k) := by
  induction as with
  | nil => rfl
  | cons a as ih =>
    rw [List.forall_mem_cons] at h
    rw [List.map_cons, List.mapM_cons, h.1, ih h.2]
    rfl

namespace Json

variable {members : List (String × Json)}

/-! ### Values that are built -/

theorem isProper_contentOf (text : String) : ∀ piece ∈ contentOf text, piece.IsProper := by
  intro piece hpiece
  obtain ⟨c, -, rfl⟩ := List.mem_map.mp hpiece
  trivial

theorem isProper_ofText (text : String) : (ofText text).IsProper := .string (isProper_contentOf text)

theorem isProper_ofNat (n : Nat) : (ofNat n).IsProper := .number (number?_toDigits n)

theorem isProper_ofMembers (h : ∀ member ∈ members, member.2.IsProper) :
    (ofMembers members).IsProper := by
  refine .object (fun member hmember => ?_) (fun member hmember => ?_)
  · obtain ⟨⟨name, value⟩, -, rfl⟩ := List.mem_map.mp hmember
    exact isProper_contentOf name
  · obtain ⟨⟨name, value⟩, hmem, rfl⟩ := List.mem_map.mp hmember
    exact h _ hmem

@[simp] theorem text?_ofText (text : String) : (ofText text).text? = some text :=
  textOf?_contentOf text

/-- A whole number is read back if it is below `2 ^ 64`. -/
theorem word?_ofNat {n : Nat} (h : n < 0x10000000000000000) : (ofNat n).word? = some n := by
  have hdigits : (Nat.toDigits 10 n).all Char.isDigit = true :=
    List.all_eq_true.mpr fun _ => Nat.isDigit_of_mem_toDigits (by decide) (by decide)
  rw [ofNat, word?, hdigits, Nat.ofDigitChars_ten_toDigits, Bool.true_and, if_pos (decide_eq_true h)]

/-! ### Members -/

@[simp] theorem members?_ofMembers (members : List (String × Json)) :
    (ofMembers members).members? = some members := by
  have hread : ∀ member ∈ members, (textOf? (contentOf member.1)).map (·, member.2) = some member := by
    intro member _
    rw [textOf?_contentOf, Option.map_some]
  rw [ofMembers, members?]
  exact (mapM_map_eq_some hread).trans (congrArg some (List.map_id' members))

/-- Where each name occurs once, no member is replaced. -/
theorem lastOfEach_of_nodup (h : (members.map Prod.fst).Nodup) : lastOfEach members = members := by
  induction members with
  | nil => rfl
  | cons member members ih =>
    obtain ⟨name, value⟩ := member
    rw [List.map_cons, List.nodup_cons] at h
    have hnew : ¬ members.any (·.1 = name) = true := by
      intro hany
      obtain ⟨member, hmem, hname⟩ := List.any_eq_true.mp hany
      exact h.1 (List.mem_map.mpr ⟨member, hmem, of_decide_eq_true hname⟩)
    have hcons : lastOfEach ((name, value) :: members) =
        if (lastOfEach members).any (·.1 = name) then lastOfEach members
        else (name, value) :: lastOfEach members := rfl
    rw [hcons, ih h.2, if_neg hnew]

theorem fields?_ofMembers (h : (members.map Prod.fst).Nodup) :
    (ofMembers members).fields? = some members := by
  rw [fields?, members?_ofMembers, Option.map_some, lastOfEach_of_nodup h]

theorem lookup_of_mem (h : (members.map Prod.fst).Nodup) {member : String × Json}
    (hmem : member ∈ members) : members.lookup member.1 = some member.2 := by
  induction members with
  | nil => cases hmem
  | cons first members ih =>
    rw [List.map_cons, List.nodup_cons] at h
    rw [List.lookup_cons]
    split
    · next heq =>
      obtain rfl | hmem := List.mem_cons.mp hmem
      · rfl
      · exact absurd (List.mem_map.mpr ⟨member, hmem, eq_of_beq heq⟩) h.1
    · next hne =>
      obtain rfl | hmem := List.mem_cons.mp hmem
      · simp at hne
      · exact ih h.2 hmem

/-- An object is the record of its members, each under its own name. -/
theorem record?_ofMembers (h : (members.map Prod.fst).Nodup) :
    (ofMembers members).record? (members.map Prod.fst) = some (members.map Prod.snd) := by
  have hfield : ∀ member ∈ members, (ofMembers members).field? member.1 = some member.2 := by
    intro member hmem
    rw [field?, fields?_ofMembers h]
    exact lookup_of_mem h hmem
  exact mapM_map_eq_some hfield

/-! ### Sound values -/

theorem isSound_ofText (text : String) (depth : Nat) : (ofText text).isSound depth = true := by
  rw [ofText, isSound, textOf?_contentOf]
  rfl

/-- A whole number below `2 ^ 64` is in the range of doubles. -/
theorem isSound_ofNat {n : Nat} (h : n < 0x10000000000000000) (depth : Nat) :
    (ofNat n).isSound depth = true := by
  have hle : n ≤ 1 * Binary64.largest := by
    rw [Nat.one_mul]
    exact h.le.trans (by decide +kernel)
  obtain ⟨_, hfinite⟩ := Binary64.nearest_eq_finite false Nat.one_pos hle
  rw [ofNat, isSound, inRange, Binary64.ofList?_toDigits, Binary64.ofNat, hfinite]
  rfl

theorem isSound_ofMembers {depth : Nat} (h : ∀ member ∈ members, member.2.isSound depth = true) :
    (ofMembers members).isSound (depth + 1) = true := by
  rw [ofMembers, isSound, Nat.add_sub_cancel, Bool.and_eq_true]
  refine ⟨decide_eq_true depth.succ_pos, ?_⟩
  induction members with
  | nil => rfl
  | cons member members ih =>
    rw [List.forall_mem_cons] at h
    rw [List.map_cons, areSoundMembers, textOf?_contentOf, h.1, ih h.2]
    rfl

theorem isSound_array {items : List Json} {depth : Nat} (h : ∀ item ∈ items, item.isSound depth = true) :
    (array items).isSound (depth + 1) = true := by
  rw [isSound, Nat.add_sub_cancel, Bool.and_eq_true]
  refine ⟨decide_eq_true depth.succ_pos, ?_⟩
  induction items with
  | nil => rfl
  | cons item items ih =>
    rw [List.forall_mem_cons] at h
    rw [areSound, h.1, ih h.2]
    rfl

/-- A sound value is read back also where only sound values are accepted. -/
theorem readSound?_toText {value : Json} (h : value.IsProper) (hsound : value.isSound 127 = true) :
    readSound? value.toText = some value := by
  rw [readSound?, read?_toText h, Option.filter_some, if_pos hsound]

end Json

/-! ### Derivations -/

namespace Derivation

theorem isProper_toJson (d : Derivation) : d.toJson.IsProper :=
  Json.isProper_ofMembers (by simp [Json.isProper_ofText])

theorem ofJson?_toJson (d : Derivation) : ofJson? d.toJson = some d := by
  have hmembers : d.toJson.members? = some [("input", .ofText d.input),
      ("function", .ofText d.function), ("derivative", .ofText d.derivative)] :=
    Json.members?_ofMembers _
  have hread : ofJson? d.toJson = d.toJson.members?.bind fun members => do
      return ⟨← onlyText? members "input", ← onlyText? members "function",
        ← onlyText? members "derivative"⟩ := rfl
  rw [hread, hmembers]
  simp [onlyText?]

/-- **A text is read as the derivation that it was written for.** -/
theorem ofJsonText?_toJsonText (d : Derivation) : ofJsonText? d.toJsonText = some d := by
  rw [ofJsonText?, toJsonText, Json.read?_toText d.isProper_toJson]
  exact d.ofJson?_toJson

theorem toJsonText_injective : Function.Injective toJsonText := by
  intro d e h
  have hread := congrArg ofJsonText? h
  rw [ofJsonText?_toJsonText, ofJsonText?_toJsonText] at hread
  exact Option.some.inj hread

end Derivation

/-! ### Tokens -/

theorem NamedFunction.ofTag?_tag (f : NamedFunction) : ofTag? f.tag = some f := by
  cases f <;> rfl

@[simp] theorem Json.tag?_ofText (name : String) : (ofText name).tag? = some name := by
  rw [tag?, text?_ofText]

namespace Token.Kind

/-- A kind travels under its name alone, or under the name of a function. -/
theorem toJson_cases (kind : Kind) :
    (∃ name, kind.toJson = .ofText name ∧ tags.lookup name = some kind) ∨
    ∃ f, kind = .function f ∧ kind.toJson = .ofMembers [("Function", .ofText f.tag)] := by
  cases kind with
  | function f => exact .inr ⟨f, rfl, rfl⟩
  | constant c => cases c <;> exact .inl ⟨_, rfl, rfl⟩
  | operator op => cases op <;> exact .inl ⟨_, rfl, rfl⟩
  | _ => exact .inl ⟨_, rfl, rfl⟩

theorem isProper_toJson (kind : Kind) : kind.toJson.IsProper := by
  obtain ⟨name, hjson, -⟩ | ⟨f, -, hjson⟩ := kind.toJson_cases
  · exact hjson ▸ Json.isProper_ofText name
  · exact hjson ▸ Json.isProper_ofMembers (by simp [Json.isProper_ofText])

theorem isSound_toJson (kind : Kind) (depth : Nat) : kind.toJson.isSound (depth + 1) = true := by
  obtain ⟨name, hjson, -⟩ | ⟨f, -, hjson⟩ := kind.toJson_cases
  · exact hjson ▸ Json.isSound_ofText name _
  · exact hjson ▸ Json.isSound_ofMembers (by simp [Json.isSound_ofText])

theorem ofJson?_toJson (kind : Kind) : ofJson? kind.toJson = some kind := by
  obtain ⟨name, hjson, hname⟩ | ⟨f, rfl, hjson⟩ := kind.toJson_cases
  · have hread : ofJson? (.ofText name) = (Json.ofText name).tag?.bind (tags.lookup ·) := rfl
    rw [hjson, hread, Json.tag?_ofText]
    exact hname
  · rw [hjson, ofJson?, Json.fields?_ofMembers (by simp)]
    simp [NamedFunction.ofTag?_tag]

end Token.Kind

namespace Span

/-- Both offsets are below `2 ^ 64`. -/
def IsWord (span : Span) : Prop := span.start < 0x10000000000000000 ∧ span.stop < 0x10000000000000000

theorem isProper_toJson (span : Span) : span.toJson.IsProper :=
  Json.isProper_ofMembers (by simp [Json.isProper_ofNat])

variable {span : Span}

theorem IsWord.isSound_toJson (h : span.IsWord) (depth : Nat) :
    span.toJson.isSound (depth + 1) = true :=
  Json.isSound_ofMembers (by simp [Json.isSound_ofNat h.1, Json.isSound_ofNat h.2])

theorem IsWord.ofJson?_toJson (h : span.IsWord) : ofJson? span.toJson = some span := by
  have hrecord : span.toJson.record? ["start", "end"] =
      some [.ofNat span.start, .ofNat span.stop] := Json.record?_ofMembers (by simp)
  rw [ofJson?, hrecord]
  simp [Json.word?_ofNat h.1, Json.word?_ofNat h.2]

end Span

namespace Token

variable {token : Token} {tokens : List Token}

theorem isProper_toJson (token : Token) : token.toJson.IsProper :=
  Json.isProper_ofMembers
    (by simp [Json.isProper_ofText, Kind.isProper_toJson, Span.isProper_toJson])

theorem isSound_toJson (h : token.span.IsWord) (depth : Nat) :
    token.toJson.isSound (depth + 2) = true :=
  Json.isSound_ofMembers
    (by simp [Json.isSound_ofText, Kind.isSound_toJson, h.isSound_toJson])

theorem ofJson?_toJson (h : token.span.IsWord) : ofJson? token.toJson = some token := by
  have hrecord : token.toJson.record? ["kind", "text", "span"] =
      some [token.kind.toJson, .ofText token.text, token.span.toJson] :=
    Json.record?_ofMembers (by simp)
  rw [ofJson?, hrecord]
  simp [Kind.ofJson?_toJson, h.ofJson?_toJson]

/-- **A text is read as the tokens that it was written for.** -/
theorem listOfJsonText?_listToJsonText (h : ∀ token ∈ tokens, token.span.IsWord) :
    listOfJsonText? (listToJsonText tokens) = some tokens := by
  have hproper : (listToJson tokens).IsProper := by
    refine .array fun item hitem => ?_
    obtain ⟨token, -, rfl⟩ := List.mem_map.mp hitem
    exact token.isProper_toJson
  have hsound : (listToJson tokens).isSound 127 = true := by
    refine Json.isSound_array fun item hitem => ?_
    obtain ⟨token, hmem, rfl⟩ := List.mem_map.mp hitem
    exact isSound_toJson (h token hmem) 124
  have hread : listOfJson? (listToJson tokens) = some tokens :=
    (mapM_map_eq_some fun token hmem => ofJson?_toJson (h token hmem)).trans
      (congrArg some (List.map_id' tokens))
  rw [listOfJsonText?, listToJsonText, Json.readSound?_toText hproper hsound]
  exact hread

end Token

/-! ### Both ways -/

/-- **Nothing is lost in JSON.** Every derivation is read back from its text, so no two have the same;
and tokens whose offsets are below `2 ^ 64` are read back from theirs, so that they are read as the same
formula, or refused for the same cause, as before. -/
theorem read_back :
    (∀ d : Derivation, Derivation.ofJsonText? d.toJsonText = some d) ∧
      Function.Injective Derivation.toJsonText ∧
      ∀ tokens : List Token, (∀ token ∈ tokens, token.span.IsWord) →
        Token.listOfJsonText? (Token.listToJsonText tokens) = some tokens ∧
        (Token.listOfJsonText? (Token.listToJsonText tokens)).map Formula.ofTokens =
          some (Formula.ofTokens tokens) := by
  refine ⟨Derivation.ofJsonText?_toJsonText, Derivation.toJsonText_injective, fun tokens h => ?_⟩
  have hread := Token.listOfJsonText?_listToJsonText h
  exact ⟨hread, by rw [hread, Option.map_some]⟩

/-- A cotangent with characters of every kind that is escaped, and the end of the input. -/
theorem read_back_cotangent :
    let tokens : List Token := [⟨.function .cot, "\"\\\n\x01😀", ⟨0xFFFFFFFFFFFFFFFF, 0⟩⟩, .endAt 3]
    (∀ token ∈ tokens, token.span.IsWord) ∧
      Token.listOfJsonText? (Token.listToJsonText tokens) = some tokens := by
  intro tokens
  have h : ∀ token ∈ tokens, token.span.IsWord := by
    simp [tokens, Span.IsWord, Token.endAt, Span.emptyAt]
  exact ⟨h, (read_back.2.2 tokens h).1⟩

end Fluxion
