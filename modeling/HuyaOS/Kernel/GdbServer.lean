import HuyaOS.Lib.Transition

/-!
`GdbServer::getPacket`. The loop waits for characters at four places; a step of the
model is what it does with one character until it waits again or returns. The characters
of a packet go into a buffer that all packets share.

The frames in a stream are read by a machine of their own, which keeps the whole payload
and knows no buffer. The packets that `putPacket` sends are such frames.
-/

namespace HuyaOS.GdbServer

open Lib Function List

def bufMax : Nat := 400

def hex (ch : UInt8) : UInt8 :=
  if 'a'.toUInt8 ≤ ch ∧ ch ≤ 'f'.toUInt8 then ch - 'a'.toUInt8 + 10
  else if '0'.toUInt8 ≤ ch ∧ ch ≤ '9'.toUInt8 then ch - '0'.toUInt8
  else if 'A'.toUInt8 ≤ ch ∧ ch ≤ 'F'.toUInt8 then ch - 'A'.toUInt8 + 10
  else 255

/-- Where `getPacket` waits, or the index in the buffer that it has returned. -/
inductive Place
  | hunting
  | body
  | firstDigit
  | lastDigit
  | returned (start : Nat)

structure Session where
  place : Place
  checksum : UInt8
  xmitcsum : UInt8
  count : Nat
  buffer : Nat → UInt8

/-- The call begins with the buffer that earlier packets have left. -/
def start (buffer : Nat → UInt8) : Session := ⟨.hunting, 0, 0, 0, buffer⟩

def step (s : Session) (ch : UInt8) : Session × List UInt8 :=
  match s.place with
  | .hunting =>
      if ch = '$'.toUInt8 then ({ s with place := .body, checksum := 0, count := 0 }, [])
      else (s, [])
  | .body =>
      if ch = '$'.toUInt8 then ({ s with checksum := 0, count := 0 }, [])
      else if ch = '#'.toUInt8 then
        ({ s with buffer := update s.buffer s.count 0, place := .firstDigit }, [])
      else
        let buffer := update s.buffer s.count ch
        let s := { s with checksum := s.checksum + ch, buffer, count := s.count + 1 }
        if s.count < bufMax - 1 then (s, [])
        else ({ s with buffer := update s.buffer s.count 0, place := .hunting }, [])
  | .firstDigit => ({ s with xmitcsum := hex ch <<< 4, place := .lastDigit }, [])
  | .lastDigit =>
      let s := { s with xmitcsum := s.xmitcsum + hex ch }
      if s.checksum ≠ s.xmitcsum then ({ s with place := .hunting }, ['-'.toUInt8])
      else if s.buffer 2 = ':'.toUInt8 then
        ({ s with place := .returned 3 }, ['+'.toUInt8, s.buffer 0, s.buffer 1])
      else ({ s with place := .returned 0 }, ['+'.toUInt8])
  | .returned _ => (s, [])

def digit (ch : UInt8) : Option Nat :=
  if '0'.toUInt8 ≤ ch ∧ ch ≤ '9'.toUInt8 then some (ch.toNat - 48)
  else if 'a'.toUInt8 ≤ ch ∧ ch ≤ 'f'.toUInt8 then some (ch.toNat - 87)
  else if 'A'.toUInt8 ≤ ch ∧ ch ≤ 'F'.toUInt8 then some (ch.toNat - 55)
  else none

def checksum (payload : List UInt8) : UInt8 := payload.foldl (· + ·) 0

/-- The trailer is the sum in two hexadecimal digits. -/
def encodes (h1 h2 : UInt8) (payload : List UInt8) : Bool :=
  match digit h1, digit h2 with
  | some a, some b => a * 16 + b = (checksum payload).toNat
  | _, _ => false

def hasSequenceId (payload : List UInt8) : Bool := payload[2]? = some ':'.toUInt8

def stripped (payload : List UInt8) : List UInt8 :=
  if hasSequenceId payload then payload.drop 3 else payload

/-- A sequence id is sent back. -/
def acknowledgement (payload : List UInt8) : List UInt8 :=
  '+'.toUInt8 :: if hasSequenceId payload then payload.take 2 else []

inductive Receiving
  | hunting
  | payload (p : List UInt8)
  | trailer (p : List UInt8)
  | lastDigit (p : List UInt8) (h1 : UInt8)
  | accepted (p : List UInt8)

/-- The frames in a stream, one after the other, up to the first one with the right
trailer. A payload that does not fit into the buffer belongs to no frame. -/
def receive : Receiving → UInt8 → Receiving × List UInt8
  | .hunting, ch => (if ch = '$'.toUInt8 then .payload [] else .hunting, [])
  | .payload p, ch =>
      if ch = '$'.toUInt8 then (.payload [], [])
      else if ch = '#'.toUInt8 then (.trailer p, [])
      else (if p.length + 1 < bufMax then .payload (p ++ [ch]) else .hunting, [])
  | .trailer p, ch => (.lastDigit p ch, [])
  | .lastDigit p h1, ch =>
      if encodes h1 ch p then (.accepted p, acknowledgement p) else (.hunting, ['-'.toUInt8])
  | .accepted p, _ => (.accepted p, [])

def Stored (buffer : Nat → UInt8) (chars : List UInt8) : Prop :=
  ∀ i ch, chars[i]? = some ch → buffer i = ch

/-- What is returned is the payload of the accepted frame with a zero behind it. -/
def Returned (s : Session) : Receiving → Prop
  | .accepted p =>
      ∃ start, s.place = .returned start ∧
      Stored (fun i => s.buffer (start + i)) (stripped p ++ [0])
  | _ => ∀ start, s.place ≠ .returned start

/-- The frames, with the third character that was stored last: the third one of a
payload, or the zero behind two characters. -/
def track (t : UInt8 × Receiving) (ch : UInt8) : (UInt8 × Receiving) × List UInt8 :=
  let third :=
    match t.2 with
    | .payload p =>
        if p.length = 2 ∧ ch ≠ '$'.toUInt8 then if ch = '#'.toUInt8 then 0 else ch else t.1
    | _ => t.1
  ((third, (receive t.2 ch).1), (receive t.2 ch).2)

/-- The end of a frame. The payload leaves room for the zero and one more character, the
trailer is not taken for the sum without being in hexadecimal digits, and no colon was
left behind a payload with fewer than two characters. -/
def Clean (t : UInt8 × Receiving) (ch : UInt8) : Prop :=
  match t.2 with
  | .lastDigit p h1 =>
      p.length ≠ bufMax - 1 ∧
      (encodes h1 ch p = false → hex h1 <<< 4 + hex ch ≠ checksum p) ∧
      (encodes h1 ch p = true → 2 ≤ p.length ∨ t.1 ≠ ':'.toUInt8)
  | _ => True

theorem Stored.nil (buffer : Nat → UInt8) : Stored buffer [] := by
  intro i ch h
  simp at h

variable {buffer : Nat → UInt8} {p : List UInt8} {ch : UInt8} {s : Session} {r : Receiving}

theorem Stored.concat (h : Stored buffer p) (ch : UInt8) :
    Stored (update buffer p.length ch) (p ++ [ch]) := by
  intro i c hi
  rcases Nat.lt_trichotomy i p.length with hlt | rfl | hgt
  · rw [getElem?_append_left hlt] at hi
    rw [update_of_ne hlt.ne, h i c hi]
  · simpa using hi
  · rw [getElem?_eq_none (by simp; omega)] at hi
    exact absurd hi (Option.some_ne_none c).symm

theorem Stored.drop (h : Stored buffer p) (n : Nat) :
    Stored (fun i => buffer (n + i)) (p.drop n) := by
  intro i ch hi
  apply h (n + i) ch
  rw [← hi, getElem?_drop]

theorem Stored.third_iff (h : Stored buffer (p ++ [0])) (htwo : 2 ≤ p.length) :
    buffer 2 = ':'.toUInt8 ↔ hasSequenceId p = true := by
  rcases htwo.lt_or_eq with hlt | heq
  · have hthird : p[2]? = some p[2] := getElem?_eq_getElem hlt
    rw [h 2 p[2] (by rw [getElem?_append_left hlt, hthird])]
    simp [hasSequenceId, hthird]
  · have hnone : p[2]? = none := getElem?_eq_none heq.ge
    have hzero : buffer 2 = 0 := h 2 0 (by rw [heq]; simp)
    have hcolon : 0 ≠ ':'.toUInt8 := by decide
    simp [hasSequenceId, hnone, hzero, hcolon]

theorem length_of_hasSequenceId (h : hasSequenceId p = true) : 3 ≤ p.length := by
  obtain ⟨hlt, -⟩ := List.getElem?_eq_some_iff.mp (of_decide_eq_true h)
  exact hlt

/-- The third character decides about the sequence id, unless it is left from a longer payload. -/
theorem Stored.colon_iff (h : Stored buffer (p ++ [0]))
    (hown : 2 ≤ p.length ∨ buffer 2 ≠ ':'.toUInt8) :
    buffer 2 = ':'.toUInt8 ↔ hasSequenceId p = true := by
  rcases le_or_gt 2 p.length with htwo | hshort
  · exact h.third_iff htwo
  · have hfew : ¬hasSequenceId p = true := fun h => by have := length_of_hasSequenceId h; omega
    exact iff_of_false (hown.resolve_left (not_le.mpr hshort)) hfew

theorem Stored.stripped (h : Stored buffer (p ++ [0])) :
    Stored (fun i => buffer ((if hasSequenceId p then 3 else 0) + i)) (stripped p ++ [0]) := by
  unfold GdbServer.stripped
  split_ifs with hid
  · rw [← drop_append_of_le_length (length_of_hasSequenceId hid)]
    exact h.drop 3
  · exact h.drop 0

theorem Stored.acknowledgement (h : Stored buffer (p ++ [0])) : acknowledgement p =
      if hasSequenceId p then ['+'.toUInt8, buffer 0, buffer 1] else ['+'.toUInt8] := by
  unfold GdbServer.acknowledgement
  split_ifs with hid
  · match p, length_of_hasSequenceId hid, h with
    | a :: b :: c :: rest, _, h =>
      rw [h 0 a rfl, h 1 b rfl]
      rfl
  · rfl

theorem all_digits : ∀ b : BitVec 8, ∀ a ∈ digit ⟨b⟩, (hex ⟨b⟩).toNat = a ∧ a < 16 := by
  decide +kernel

theorem hex_of_digit {a : Nat} (h : digit ch = some a) : (hex ch).toNat = a ∧ a < 16 :=
  all_digits ch.toBitVec a h

theorem decoded_of_encodes {h1 h2 : UInt8} (h : encodes h1 h2 p = true) :
    hex h1 <<< 4 + hex h2 = checksum p := by
  simp only [encodes] at h
  split at h
  · rename_i a b ha hb
    obtain ⟨hhigh, ha16⟩ := hex_of_digit ha
    obtain ⟨hlow, hb16⟩ := hex_of_digit hb
    apply UInt8.toNat_inj.mp
    rw [← of_decide_eq_true h, UInt8.toNat_add, UInt8.toNat_shiftLeft, Nat.shiftLeft_eq]
    simp
    omega
  · exact absurd h Bool.false_ne_true

/-- The places that belong together. The last three are those where the loop has given up a
payload that just fits. -/
inductive Corresponds (s : Session) : Receiving → Prop
  | hunting (place : s.place = .hunting) : Corresponds s .hunting
  | payload {p : List UInt8} (place : s.place = .body) (count : s.count = p.length)
      (room : p.length < bufMax - 1) (sum : s.checksum = checksum p) (stored : Stored s.buffer p) :
      Corresponds s (.payload p)
  | trailer {p : List UInt8} (place : s.place = .firstDigit) (room : p.length < bufMax - 1)
      (sum : s.checksum = checksum p) (stored : Stored s.buffer (p ++ [0])) : Corresponds
        s (.trailer p)
  | lastDigit {p : List UInt8} {h1 : UInt8} (place : s.place = .lastDigit)
    (room : p.length < bufMax - 1)
      (sum : s.checksum = checksum p) (high : s.xmitcsum = hex h1 <<< 4)
      (stored : Stored s.buffer (p ++ [0])) : Corresponds s (.lastDigit p h1)
  | accepted {p : List UInt8} (returned : Returned s (.accepted p)) : Corresponds s (.accepted p)
  | lostPayload {p : List UInt8} (place : s.place = .hunting) (full : p.length = bufMax - 1) :
      Corresponds s (.payload p)
  | lostTrailer {p : List UInt8} (place : s.place = .hunting) (full : p.length = bufMax - 1) :
      Corresponds s (.trailer p)
  | lostLastDigit {p : List UInt8} {h1 : UInt8} (place : s.place = .hunting ∨ s.place = .body)
      (full : p.length = bufMax - 1) : Corresponds s (.lastDigit p h1)

theorem Corresponds.returned (h : Corresponds s r) : Returned s r := by
  cases h with
  | accepted h => exact h
  | hunting place | payload place | trailer place | lastDigit place | lostPayload place
    | lostTrailer place =>
    intro start
    rw [place]
    exact Place.noConfusion
  | lostLastDigit place =>
    intro start
    rcases place with place | place <;> rw [place] <;> exact Place.noConfusion

section Steps

variable {s : Session} {p : List UInt8} {h1 ch : UInt8}

theorem Corresponds.begin (place : s.place = .body) (count : s.count = 0) (sum : s.checksum = 0) :
    Corresponds s (.payload []) :=
  .payload place count (by decide) sum (Stored.nil s.buffer)

theorem step_of_hunting (place : s.place = .hunting) :
    Corresponds (step s ch).1 (if ch = '$'.toUInt8 then .payload [] else .hunting) ∧
      (step s ch).2 = [] := by
  simp only [step, place]
  split_ifs with hdollar
  · exact ⟨.begin rfl rfl rfl, rfl⟩
  · exact ⟨.hunting place, rfl⟩

theorem step_of_payload (place : s.place = .body) (count : s.count = p.length)
    (room : p.length < bufMax - 1) (sum : s.checksum = checksum p) (stored : Stored s.buffer p) :
    Corresponds (step s ch).1 (receive (.payload p) ch).1 ∧
      (step s ch).2 = (receive (.payload p) ch).2 := by
  have hfits : p.length + 1 < bufMax := Nat.add_lt_of_lt_sub room
  have hstored : Stored (update s.buffer s.count ch) (p ++ [ch]) := count ▸ stored.concat ch
  have hsum : s.checksum + ch = checksum (p ++ [ch]) := by
    rw [sum, checksum, checksum, foldl_concat]
  simp only [step, place, receive]
  split_ifs with hdollar hhash hmore
  · exact ⟨.begin rfl rfl rfl, rfl⟩
  · exact ⟨.trailer rfl room sum (count ▸ stored.concat 0), rfl⟩
  · exact ⟨.payload rfl (by simp [count]) (by simpa [count] using hmore) hsum hstored, rfl⟩
  · -- the last place of the buffer is left for the zero, and the loop ends without a '#'
    refine ⟨.lostPayload rfl ?_, rfl⟩
    rw [length_append]
    rw [count] at hmore
    exact le_antisymm (Nat.succ_le_of_lt room) (not_lt.mp hmore)

theorem step_of_lastDigit (place : s.place = .lastDigit) (sum : s.checksum = checksum p)
    (high : s.xmitcsum = hex h1 <<< 4) (stored : Stored s.buffer (p ++ [0]))
    (hclean : Clean (s.buffer 2, .lastDigit p h1) ch) :
    Corresponds (step s ch).1 (receive (.lastDigit p h1) ch).1 ∧
      (step s ch).2 = (receive (.lastDigit p h1) ch).2 := by
  obtain ⟨-, hrejected, haccepted⟩ := hclean
  simp only [step, place, receive, sum, high]
  by_cases hencodes : encodes h1 ch p = true
  · have hcolon := stored.colon_iff (haccepted hencodes)
    have hreturned := stored.stripped
    rw [if_neg (not_not.mpr (decoded_of_encodes hencodes).symm), if_pos hencodes,
      stored.acknowledgement]
    by_cases hid : hasSequenceId p = true
    · rw [if_pos hid] at hreturned
      rw [if_pos (hcolon.mpr hid), if_pos hid]
      exact ⟨.accepted ⟨3, rfl, hreturned⟩, rfl⟩
    · rw [if_neg hid] at hreturned
      rw [if_neg (mt hcolon.mp hid), if_neg hid]
      exact ⟨.accepted ⟨0, rfl, hreturned⟩, rfl⟩
  · have hdiffers := hrejected (Bool.eq_false_iff.mpr hencodes)
    rw [if_pos hdiffers.symm, if_neg hencodes]
    exact ⟨.hunting rfl, rfl⟩

end Steps

theorem Corresponds.step (h : Corresponds s r) (hclean : Clean (s.buffer 2, r) ch) :
    Corresponds (step s ch).1 (receive r ch).1 ∧ (step s ch).2 = (receive r ch).2 := by
  cases h with
  | hunting place => exact step_of_hunting place
  | payload place count room sum stored => exact step_of_payload place count room sum stored
  | trailer place room sum stored =>
    simp only [GdbServer.step, place, receive]
    exact ⟨.lastDigit rfl room sum rfl stored, trivial⟩
  | lastDigit place room sum high stored => exact step_of_lastDigit place sum high stored hclean
  | accepted returned =>
    obtain ⟨start, place, hstored⟩ := returned
    simp only [GdbServer.step, place, receive]
    exact ⟨.accepted ⟨start, place, hstored⟩, trivial⟩
  | @lostPayload p place full =>
    have hfull : ¬p.length + 1 < bufMax := by rw [full]; decide
    simp only [GdbServer.step, place, receive, if_neg hfull]
    split_ifs
    · exact ⟨.begin rfl rfl rfl, rfl⟩
    · exact ⟨.lostTrailer place full, rfl⟩
    · exact ⟨.hunting place, rfl⟩
  | @lostTrailer p place full =>
    simp only [GdbServer.step, place, receive]
    split_ifs
    · exact ⟨.lostLastDigit (.inr rfl) full, rfl⟩
    · exact ⟨.lostLastDigit (.inl place) full, rfl⟩
  | lostLastDigit place full => exact absurd full hclean.1

theorem Corresponds.answer_ne (h : Corresponds s r) (hclean : ¬Clean (s.buffer 2, r) ch) :
    (GdbServer.step s ch).2 ≠ (receive r ch).2 := by
  cases h with
  | hunting | payload | trailer | accepted | lostPayload | lostTrailer =>
    exact absurd trivial hclean
  | @lostLastDigit p h1 place full =>
    have hsilent : (GdbServer.step s ch).2 = [] := by
      rcases place with place | place <;> simp only [GdbServer.step, place] <;> split_ifs <;> rfl
    rw [hsilent]
    simp only [receive]
    split_ifs <;> exact (cons_ne_nil _ _).symm
  | @lastDigit p h1 place room sum high stored =>
    by_cases hdecoded : checksum p ≠ hex h1 <<< 4 + hex ch
    · -- a rejected trailer that meets the condition
      have hencodes : encodes h1 ch p = false :=
        Bool.eq_false_iff.mpr fun h => hdecoded (decoded_of_encodes h).symm
      exact absurd ⟨room.ne, fun _ => hdecoded.symm,
        fun h => absurd (hencodes ▸ h) Bool.false_ne_true⟩ hclean
    · simp only [GdbServer.step, place, receive, sum, high, if_neg hdecoded]
      by_cases hencodes : encodes h1 ch p = true
      · rw [if_pos hencodes]
        have hstale : p.length < 2 ∧ s.buffer 2 = ':'.toUInt8 := by
          by_contra hnot
          refine hclean ⟨room.ne, fun h => absurd (h ▸ hencodes) Bool.false_ne_true, fun _ => ?_⟩
          exact (le_or_gt 2 p.length).imp_right fun hshort hcolon => hnot ⟨hshort, hcolon⟩
        have hid : ¬hasSequenceId p = true := fun h => by
          have := length_of_hasSequenceId h
          omega
        rw [if_pos hstale.2, acknowledgement, if_neg hid]
        simp
      · rw [if_neg hencodes]
        have hsign : '+'.toUInt8 ≠ '-'.toUInt8 := by decide
        split_ifs <;> exact fun h => hsign (cons.inj h).1

theorem Corresponds.third (h : Corresponds s r) (hclean : Clean (s.buffer 2, r) ch) :
    (GdbServer.step s ch).1.buffer 2 = (track (s.buffer 2, r) ch).1.1 := by
  cases h with
  | hunting place | lastDigit place | lostTrailer place =>
    simp only [GdbServer.step, place, track]
    split_ifs <;> rfl
  | trailer place => simp only [GdbServer.step, place, track]
  | accepted returned =>
    obtain ⟨start, place, -⟩ := returned
    simp only [GdbServer.step, place, track]
  | @lostPayload p place full =>
    have hlong : ¬(p.length = 2 ∧ ch ≠ '$'.toUInt8) :=
      fun h => absurd (full.symm.trans h.1) (by decide)
    simp only [GdbServer.step, place, track, if_neg hlong]
    split_ifs <;> rfl
  | lostLastDigit place full => exact absurd full hclean.1
  | @payload p place count room sum stored =>
    simp only [GdbServer.step, place, track, count]
    by_cases hdollar : ch = '$'.toUInt8
    · rw [if_pos hdollar, if_neg fun h => h.2 hdollar]
    by_cases htwo : p.length = 2
    · have hmore : p.length + 1 < bufMax - 1 := by rw [htwo]; decide
      simp only [if_neg hdollar, if_pos hmore, if_pos (And.intro htwo hdollar)]
      split_ifs <;> exact htwo ▸ update_self ..
    · have hother : 2 ≠ p.length := Ne.symm htwo
      simp only [if_neg hdollar, if_neg (mt And.left htwo)]
      split_ifs with hhash hmore
      · exact update_of_ne hother ..
      · exact update_of_ne hother ..
      · have hlast : 2 ≠ p.length + 1 := fun h => hmore (by rw [← h]; decide)
        exact (update_of_ne hlast ..).trans (update_of_ne hother ..)

def Related (s : Session) (t : UInt8 × Receiving) : Prop := s.buffer 2 = t.1 ∧ Corresponds s t.2

theorem execute_track (third : UInt8) (r : Receiving) (input : List UInt8) :
    (execute track (third, r) input).1.2 = (execute receive r input).1 ∧
      (execute track (third, r) input).2 = (execute receive r input).2 := by
  induction input generalizing third r with
  | nil => exact ⟨rfl, rfl⟩
  | cons ch input ih =>
    obtain ⟨hstate, hanswers⟩ := ih (track (third, r) ch).1.1 (receive r ch).1
    exact ⟨hstate, congrArg ((receive r ch).2 :: ·) hanswers⟩

/-- Whatever earlier packets have left in the buffer, `getPacket` acknowledges and returns
the first frame with the right trailer, and rejects those before it, exactly as long as the
ends of all frames meet the condition. -/
theorem getPacket_frames_iff (buffer : Nat → UInt8) (input : List UInt8) :
    ((execute step (start buffer) input).2 = (execute receive .hunting input).2 ∧
      Returned (execute step (start buffer) input).1 (execute receive .hunting input).1) ↔
    AllMet track Clean (buffer 2, .hunting) input := by
  obtain ⟨hstate, hanswers⟩ := execute_track (buffer 2) .hunting input
  rw [← hstate, ← hanswers]
  apply execute_agree_iff (R := Related) fun s t => Returned s t.2
  · rintro s ⟨third, r⟩ ch ⟨rfl, hcorresponds⟩ hclean
    obtain ⟨hnext, hanswer⟩ := hcorresponds.step hclean
    exact ⟨⟨hcorresponds.third hclean, hnext⟩, hanswer⟩
  · rintro s ⟨third, r⟩ ch ⟨rfl, hcorresponds⟩ hclean
    exact hcorresponds.answer_ne hclean
  · rintro s t ⟨-, hcorresponds⟩
    exact hcorresponds.returned
  · exact ⟨rfl, .hunting rfl⟩

/-- The bytes of a text. -/
def bytes (text : String) : List UInt8 := text.toList.map Char.toUInt8

-- The colon of an earlier packet is taken for the one of an empty payload.
example : (execute step (start (update (fun _ => 0) 2 ':'.toUInt8)) (bytes "$#00")).2 ≠
    (execute step (start fun _ => 0) (bytes "$#00")).2 := by
  decide +kernel

/-- The trailer `zz` is no number, and is taken for 239. -/
theorem getPacket_zz :
    ¬((execute step (start fun _ => 0) (bytes "$xw#zz")).2 =
      (execute receive .hunting (bytes "$xw#zz")).2 ∧
      Returned (execute step (start fun _ => 0) (bytes "$xw#zz")).1
        (execute receive .hunting (bytes "$xw#zz")).1) := by
  intro h
  exact absurd h.1 (by decide +kernel)

def hexCharacters (i : UInt8) : UInt8 := (bytes "0123456789abcdef").getD i.toNat 0

/-- What a round of the loop sends. The payload is what stands in front of the zero. -/
def packet (payload : List UInt8) : List UInt8 :=
  '$'.toUInt8 :: payload ++
    ['#'.toUInt8, hexCharacters (checksum payload >>> 4), hexCharacters (checksum payload &&& 0x0F)]

/-- What is sent, and whether the input has the plus sign that ends the loop. -/
def putPacket (payload : List UInt8) : List UInt8 → List UInt8 × Bool
  | [] => (packet payload, false)
  | ch :: input =>
      if ch = '+'.toUInt8 then (packet payload, true)
      else (packet payload ++ (putPacket payload input).1, (putPacket payload input).2)

theorem digit_hexCharacters : ∀ b : BitVec 8,
    digit (hexCharacters (UInt8.ofBitVec b >>> 4)) = some (b.toNat / 16) ∧
      digit (hexCharacters (UInt8.ofBitVec b &&& 0x0F)) = some (b.toNat % 16) := by
  decide +kernel

theorem encodes_hexCharacters (p : List UInt8) :
    encodes (hexCharacters (checksum p >>> 4)) (hexCharacters (checksum p &&& 0x0F)) p = true := by
  obtain ⟨hhigh, hlow⟩ := digit_hexCharacters (checksum p).toBitVec
  simp only [encodes, hhigh, hlow]
  exact decide_eq_true (Nat.div_add_mod' ..)

theorem own_step {n : Nat} (h : Corresponds s (.payload p)) (hle : p.length ≤ n)
    (hown : 2 ≤ n ∨ s.buffer 2 ≠ ':'.toUInt8) (ch : UInt8) :
    2 ≤ n ∨ (step s ch).1.buffer 2 ≠ ':'.toUInt8 := by
  rcases le_or_gt 2 n with htwo | hshort
  · exact .inl htwo
  · have hnot : ¬(p.length = 2 ∧ ch ≠ '$'.toUInt8) := by omega
    rw [h.third trivial]
    simpa only [track, if_neg hnot] using hown

theorem reads_payload {q : List UInt8} {h1 h2 : UInt8} (h : Corresponds s (.payload q))
    (hroom : (q ++ p).length < bufMax - 1) (hchars : ∀ ch ∈ p, ch ≠ '$'.toUInt8 ∧ ch ≠ '#'.toUInt8)
    (hown : 2 ≤ (q ++ p).length ∨ s.buffer 2 ≠ ':'.toUInt8)
    (hencodes : encodes h1 h2 (q ++ p) = true) :
    Returned (execute step s (p ++ ['#'.toUInt8, h1, h2])).1 (.accepted (q ++ p)) ∧
      (execute step s (p ++ ['#'.toUInt8, h1, h2])).2.flatten = acknowledgement (q ++ p) := by
  induction p generalizing s q with
  | nil =>
    rw [append_nil] at *
    obtain ⟨htrailer, hsilent⟩ : Corresponds (step s '#'.toUInt8).1 (.trailer q) ∧ _ = [] :=
      h.step trivial
    obtain ⟨hlast, hsilent'⟩ : Corresponds _ (.lastDigit q h1) ∧ _ = [] := htrailer.step trivial
    have hclean : Clean ((step (step s '#'.toUInt8).1 h1).1.buffer 2, .lastDigit q h1) h2 := by
      refine ⟨hroom.ne, fun h => absurd (h ▸ hencodes) Bool.false_ne_true, fun _ => ?_⟩
      rw [htrailer.third trivial]
      exact own_step h le_rfl hown _
    obtain ⟨haccepted, hanswer⟩ := hlast.step hclean
    simp only [receive, if_pos hencodes] at haccepted hanswer
    refine ⟨haccepted.returned, ?_⟩
    simp only [nil_append, execute, flatten_cons, hsilent, hsilent', hanswer,
      flatten_nil, append_nil]
  | cons ch p ih =>
    obtain ⟨⟨hdollar, hhash⟩, hrest⟩ := forall_mem_cons.mp hchars
    have hclean : Clean (s.buffer 2, .payload q) ch := trivial
    obtain ⟨hnext, hanswer⟩ := h.step hclean
    have hfits : q.length + 1 < bufMax := by
      rw [length_append, length_cons] at hroom
      omega
    simp only [receive, if_neg hdollar, if_neg hhash, if_pos hfits] at hnext hanswer
    have hown' := own_step h (by simp) hown ch
    rw [append_cons q] at hroom hown' hencodes ⊢
    obtain ⟨hreturned, hanswers⟩ := ih hnext hroom hrest hown' hencodes
    refine ⟨hreturned, ?_⟩
    rwa [cons_append, execute, flatten_cons, hanswer]

/-- Wherever `getPacket` waits for a packet, it returns the payload of the one that `putPacket`
sends, and its answer ends `putPacket`. -/
theorem getPacket_putPacket (hplace : s.place = .hunting) (hroom : p.length < bufMax - 1)
    (hchars : ∀ ch ∈ p, ch ≠ '$'.toUInt8 ∧ ch ≠ '#'.toUInt8)
    (hown : 2 ≤ p.length ∨ s.buffer 2 ≠ ':'.toUInt8) :
    let reader := execute step s (packet p)
    Returned reader.1 (.accepted p) ∧ reader.2.flatten = acknowledgement p ∧
      putPacket p reader.2.flatten = (packet p, true) := by
  have hdollar :
      step s '$'.toUInt8 = ({ s with place := .body, checksum := 0, count := 0 }, []) := by
    simp only [step, hplace, if_pos]
  have hbegin : Corresponds (step s '$'.toUInt8).1 (.payload []) := hdollar ▸ .begin rfl rfl rfl
  obtain ⟨hreturned, hread⟩ :=
    reads_payload hbegin hroom hchars (hdollar ▸ hown) (encodes_hexCharacters p)
  have hanswer : (execute step s (packet p)).2.flatten = acknowledgement p := by
    rw [packet, cons_append, execute, flatten_cons, hread, hdollar]
    rfl
  exact ⟨hreturned, hanswer, hanswer ▸ rfl⟩

theorem getPacket_putPacket_ok : putPacket (bytes "OK")
    (execute step (start fun _ => 0) (packet (bytes "OK"))).2.flatten =
      (packet (bytes "OK"), true) :=
  (getPacket_putPacket rfl (by decide +kernel) (by decide +kernel) (.inl (by decide +kernel))).2.2

end HuyaOS.GdbServer
