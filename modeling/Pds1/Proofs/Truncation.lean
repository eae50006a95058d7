import Pds1.Proofs.SecondPass

/-!
# Limited outputs

An output with a limit keeps a beginning of what it would get without one. A run on limited outputs
goes the same way as the run without limits until a write does not fit, and there it stops. So a
limit has no effect at all, or it cuts the outputs short and makes the run fail.
-/

namespace Pds1

/-- How limits act on the states of a run. -/
structure Cutting (σ : Type) where
  /-- The state with the limits set. -/
  cap : σ → σ
  /-- No limit is set. -/
  Free : σ → Prop
  /-- What has been written is within the limits. -/
  Fits : σ → Prop
  /-- The first state has written a beginning of what the second has. -/
  Behind : σ → σ → Prop
  trans : ∀ {s t u}, Behind s t → Behind t u → Behind s u
  fits_of_behind : ∀ {s t}, Behind s t → Fits t → Fits s

/-- Goes on with `g` unless `f` fails. -/
def chain {σ α β : Type} (f : σ → Except WriteError α × σ) (g : α → σ → Except WriteError β × σ)
    (s : σ) : Except WriteError β × σ :=
  match f s with
  | (.error e, s) => (.error e, s)
  | (.ok a, s) => g a s

namespace Cutting

variable {σ α β : Type} {k : Cutting σ}

/-- What a run with limits ends with, if without limits it ends with `a` and the state `v`. -/
inductive Leaves (k : Cutting σ) (a : α) (v : σ) : Except WriteError α × σ → Prop where
  | whole (fits : k.Fits v) : Leaves k a v (.ok a, k.cap v)
  | short {e : WriteError} {s : σ} (beyond : ¬ k.Fits v) (behind : k.Behind s v) :
      Leaves k a v (.error e, s)

/-- Without limits `f` goes from `u` to `v`, and limits only cut it short. -/
structure Tracks (k : Cutting σ) (f : σ → Except WriteError α × σ) (u : σ) (a : α) (v : σ) :
    Prop where
  full : f u = (.ok a, v)
  free : k.Free v
  grows : k.Behind u v
  cut : k.Fits u → k.Leaves a v (f (k.cap u))

variable {f : σ → Except WriteError α × σ} {g : α → σ → Except WriteError β × σ} {u v w : σ} {a : α}
  {b : β}

theorem Tracks.chain (h : k.Tracks f u a v) (h' : k.Tracks (g a) v b w) :
    k.Tracks (chain f g) u b w where
  full := by simp only [Pds1.chain, h.full, h'.full]
  free := h'.free
  grows := k.trans h.grows h'.grows
  cut fits := by
    have first := h.cut fits
    simp only [Pds1.chain]
    generalize f (k.cap u) = r at first ⊢
    cases first with
    | whole fits' => exact h'.cut fits'
    | short beyond behind =>
      exact .short (fun fits' => beyond (k.fits_of_behind h'.grows fits')) (k.trans behind h'.grows)

theorem Tracks.map (h : k.Tracks f u a v) (g : α → β) :
    k.Tracks (fun s => ((f s).1.map g, (f s).2)) u (g a) v where
  full := by rw [h.full]; rfl
  free := h.free
  grows := h.grows
  cut fits := by
    have left := h.cut fits
    generalize f (k.cap u) = r at left ⊢
    cases left with
    | whole fits' => exact .whole fits'
    | short beyond behind => exact .short beyond behind

end Cutting

namespace Sink

def cutting (limit : Option Nat) : Cutting Sink where
  cap s := { s with limit := limit }
  Free s := s.limit = none
  Fits s := ∀ n ∈ limit, s.bytes.size ≤ n
  Behind s t := s.bytes.toList <+: t.bytes.toList
  trans h h' := h.trans h'
  fits_of_behind h fits n member := Nat.le_trans (by simpa using h.length_le) (fits n member)

theorem tracks_write (limit : Option Nat) {t : Sink} (free : t.limit = none) (data : Array UInt8) :
    (cutting limit).Tracks (fun s => s.write data) t () { t with bytes := t.bytes ++ data } where
  full := Image.Writer.write_of_unlimited free data
  free := free
  grows := by simp [cutting]
  cut fits := by
    change (cutting limit).Leaves () _ (if (limit.all fun n => t.bytes.size + data.size ≤ n) = true
      then (.ok (), (cutting limit).cap { t with bytes := t.bytes ++ data })
      else (.error .full, ⟨limit, t.bytes ++ data.extract 0 (limit.getD 0 - t.bytes.size)⟩))
    split
    · next room => exact .whole (by simpa [Option.all_eq_true, cutting] using room)
    · next full =>
      refine .short (by simpa [Option.all_eq_true, cutting] using full) ?_
      simp [cutting, List.prefix_append_right_inj, List.take_prefix]

end Sink

namespace Image.Writer

def cutting (limit : Option Nat) : Cutting Writer where
  cap w := { w with sink := (Sink.cutting limit).cap w.sink }
  Free w := w.sink.limit = none
  Fits w := (Sink.cutting limit).Fits w.sink
  Behind w v := (Sink.cutting limit).Behind w.sink v.sink
  trans h h' := (Sink.cutting limit).trans h h'
  fits_of_behind h fits := (Sink.cutting limit).fits_of_behind h fits

variable (limit : Option Nat) {v : Writer}

/-- A change that writes nothing. -/
theorem tracks_pure {α : Type} {f : Writer → Writer} (free : v.sink.limit = none)
    (sink : (f v).sink = v.sink) (capped : f ((cutting limit).cap v) = (cutting limit).cap (f v))
    (a : α) : (cutting limit).Tracks (fun w => (.ok a, f w)) v a (f v) where
  full := rfl
  free := by simpa [cutting, sink] using free
  grows := by
    simp only [cutting, sink]
    exact List.prefix_refl _
  cut fits := by
    rw [capped]
    exact .whole (by simpa [cutting, sink] using fits)

/-- Writes to a sink and puts the sink back into a writer. -/
def writeInto (data : Array UInt8) (fail done : Sink → Writer) (sink : Sink) :
    Except WriteError Unit × Writer :=
  match sink.write data with
  | (.error e, sink) => (.error e, fail sink)
  | (.ok _, sink) => (.ok (), done sink)

/-- A step that writes to the sink and changes the rest of the writer afterwards. -/
theorem tracks_writeInto {f : Writer → Except WriteError Unit × Writer} {data : Array UInt8}
    {fail fail' done done' : Sink → Writer} (free : v.sink.limit = none)
    (plain : f v = writeInto data fail done v.sink)
    (capped : f ((cutting limit).cap v) =
      writeInto data fail' done' ((Sink.cutting limit).cap v.sink))
    (sink : ∀ s, (done s).sink = s) (sink' : ∀ s, (fail' s).sink = s)
    (same : ∀ s, done' ((Sink.cutting limit).cap s) = (cutting limit).cap (done s)) :
    ∃ v', (cutting limit).Tracks f v () v' := by
  have written := Sink.tracks_write limit free data
  have full : v.sink.write data = _ := written.full
  refine ⟨done { v.sink with bytes := v.sink.bytes ++ data }, ?_, ?_, ?_, fun fits => ?_⟩
  · rw [plain, writeInto, full]
  · simpa only [cutting, sink] using free
  · simpa only [cutting, sink] using written.grows
  · have left : (Sink.cutting limit).Leaves () _
        (((Sink.cutting limit).cap v.sink).write data) := written.cut fits
    rw [capped, writeInto]
    generalize ((Sink.cutting limit).cap v.sink).write data = r at left ⊢
    cases left with
    | whole fits' =>
      simp only [same]
      exact .whole (by simpa only [cutting, sink] using fits')
    | short beyond behind =>
      exact .short (by simpa only [cutting, sink] using beyond)
        (by simpa only [cutting, sink, sink'] using behind)

theorem tracks_flush (free : v.sink.limit = none) :
    ∃ v', (cutting limit).Tracks flush v () v' := by
  obtain ⟨sink, format, block, blocks, start, log⟩ := v
  cases block with
  | none => exact ⟨_, rfl, free, List.prefix_refl _, fun fits => .whole fits⟩
  | some b =>
    exact tracks_writeInto limit free rfl rfl (fun _ => rfl) (fun _ => rfl) (fun _ => rfl)

/-- Writes the open block if a condition holds. -/
def flushIf (condition : Writer → Bool) (w : Writer) : Except WriteError Unit × Writer :=
  if condition w then w.flush else (.ok (), w)

theorem tracks_flushIf (free : v.sink.limit = none) (condition : Writer → Bool)
    (same : condition ((cutting limit).cap v) = condition v) :
    ∃ v', (cutting limit).Tracks (flushIf condition) v () v' := by
  cases needed : condition v with
  | false =>
    refine ⟨v, by simp [flushIf, needed], free, List.prefix_refl _, fun fits => ?_⟩
    simp only [flushIf, same, needed]
    exact .whole fits
  | true =>
    obtain ⟨v', flushed⟩ := tracks_flush limit free
    refine ⟨v', by simp [flushIf, needed, flushed.full], flushed.free, flushed.grows,
      fun fits => ?_⟩
    simp only [flushIf, same, needed]
    exact flushed.cut fits

/-- A word is added to the open block with and without a limit. -/
theorem tracks_append (free : v.sink.limit = none) (place : Nat) (word : Int32) :
    ∃ v', (cutting limit).Tracks (fun w => (.ok (), (w.checkPlace place).append place word)) v ()
      v' := by
  refine ⟨(v.checkPlace place).append place word, tracks_pure limit free ?_ ?_ ()⟩
  · simp only [append, checkPlace]
    split <;> rfl
  · have same : ((cutting limit).cap v).isMisplaced place = v.isMisplaced place := rfl
    simp only [checkPlace, same]
    split <;> rfl

/-- Putting a word: the open block is written if there is a gap in front of the word, and again if
the word fills it. -/
theorem put_eq (location word : Int32) :
    (fun w : Writer => w.put location word) =
      let place := location.toUInt32.toNat % 0o100000
      chain (flushIf fun w => w.breaksAt place) fun _ =>
        chain (fun w => (.ok (), (w.checkPlace place).append place word)) fun _ =>
          chain (flushIf isFull) fun _ w => (.ok (place + 1), w) := by
  funext w
  simp only [put, chain, flushIf]
  rcases (if w.breaksAt _ then w.flush else _) with ⟨e | _, w⟩
  · rfl
  · simp only
    rcases (if isFull _ = true then flush _ else _) with ⟨e | _, w⟩ <;> rfl

theorem tracks_put (free : v.sink.limit = none) (location word : Int32) :
    ∃ next v', (cutting limit).Tracks (fun w => w.put location word) v next v' := by
  rw [put_eq]
  obtain ⟨v₁, gap⟩ := tracks_flushIf limit free
    (fun w => w.breaksAt (location.toUInt32.toNat % 0o100000)) rfl
  obtain ⟨v₂, added⟩ := tracks_append limit gap.free (location.toUInt32.toNat % 0o100000) word
  obtain ⟨v₃, full⟩ := tracks_flushIf limit added.free isFull rfl
  have counted := tracks_pure limit (f := id) full.free rfl rfl
    (location.toUInt32.toNat % 0o100000 + 1)
  exact ⟨_, v₃, gap.chain (added.chain (full.chain counted))⟩

/-- Writes the bytes that close an image. -/
def writeTrailer (w : Writer) : Except WriteError Unit × Writer :=
  writeInto (trailer w.start).toArray (fun sink => { w with sink := sink })
    (fun sink => { w with sink := sink, log := w.log.push (.closedImage w.blocks w.start) }) w.sink

theorem close_eq : close = chain flush fun _ => writeTrailer := by
  funext w
  simp only [close, chain, writeTrailer, writeInto]
  rcases w.flush with ⟨e | _, w⟩ <;> rfl

theorem tracks_close (free : v.sink.limit = none) :
    ∃ v', (cutting limit).Tracks close v () v' := by
  rw [close_eq]
  obtain ⟨v₁, flushed⟩ := tracks_flush limit free
  obtain ⟨v₂, closed⟩ : ∃ v₂, (cutting limit).Tracks writeTrailer v₁ () v₂ :=
    tracks_writeInto limit flushed.free rfl rfl (fun _ => rfl) (fun _ => rfl) (fun _ => rfl)
  exact ⟨v₂, flushed.chain closed⟩

end Image.Writer

namespace Outputs

def cutting (listing object : Option Nat) : Cutting Outputs where
  cap o := ⟨(Sink.cutting listing).cap o.listing, (Image.Writer.cutting object).cap o.object⟩
  Free o := o.Unlimited
  Fits o := (Sink.cutting listing).Fits o.listing ∧ (Image.Writer.cutting object).Fits o.object
  Behind o u := (Sink.cutting listing).Behind o.listing u.listing ∧
    (Image.Writer.cutting object).Behind o.object u.object
  trans h h' := ⟨h.1.trans h'.1, h.2.trans h'.2⟩
  fits_of_behind h fits := ⟨(Sink.cutting listing).fits_of_behind h.1 fits.1,
    (Image.Writer.cutting object).fits_of_behind h.2 fits.2⟩

variable (listing object : Option Nat) {u : Outputs}

theorem tracks_idle {α : Type} (free : u.Unlimited) (a : α) :
    (cutting listing object).Tracks (fun o => (.ok a, o)) u a u :=
  ⟨rfl, free, ⟨List.prefix_refl _, List.prefix_refl _⟩, fun fits => .whole fits⟩

theorem tracks_list (free : u.Unlimited) (entry : Listing.Entry) :
    ∃ v, (cutting listing object).Tracks (fun o => o.list entry) u () v := by
  obtain ⟨sink, writer⟩ := u
  have written := Sink.tracks_write listing free.listing entry.render.toUTF8.data
  have full : sink.write entry.render.toUTF8.data = _ := written.full
  refine ⟨⟨{ sink with bytes := sink.bytes ++ entry.render.toUTF8.data }, writer⟩, ?_,
    ⟨free.listing, free.object⟩, ⟨written.grows, List.prefix_refl _⟩, fun fits => ?_⟩
  · simp only [list, Sink.writeText, full]
  · have left : (Sink.cutting listing).Leaves () _
        (((Sink.cutting listing).cap sink).write entry.render.toUTF8.data) := written.cut fits.1
    change (cutting listing object).Leaves () _
      ((((Sink.cutting listing).cap sink).write entry.render.toUTF8.data).1,
        ⟨(((Sink.cutting listing).cap sink).write entry.render.toUTF8.data).2,
          (Image.Writer.cutting object).cap writer⟩)
    generalize ((Sink.cutting listing).cap sink).write entry.render.toUTF8.data = r at left ⊢
    cases left with
    | whole fits' => exact .whole ⟨fits', fits.2⟩
    | short beyond behind =>
      exact .short (fun both => beyond both.1) ⟨behind, List.prefix_refl _⟩

/-- What an image's writer does, seen with the listing beside it. -/
theorem tracks_object {α β : Type} {f : Image.Writer → Except WriteError α × Image.Writer} {a : α}
    {w : Image.Writer} (free : u.Unlimited)
    (h : (Image.Writer.cutting object).Tracks f u.object a w) (g : α → β) :
    (cutting listing object).Tracks
      (fun o => ((f o.object).1.map g, ⟨o.listing, (f o.object).2⟩)) u (g a) ⟨u.listing, w⟩ where
  full := by rw [h.full]; rfl
  free := ⟨free.listing, h.free⟩
  grows := ⟨List.prefix_refl _, h.grows⟩
  cut fits := by
    have left := h.cut fits.2
    change (cutting listing object).Leaves (g a) _
      ((f ((Image.Writer.cutting object).cap u.object)).1.map g,
        ⟨(Sink.cutting listing).cap u.listing,
          (f ((Image.Writer.cutting object).cap u.object)).2⟩)
    generalize f ((Image.Writer.cutting object).cap u.object) = r at left ⊢
    cases left with
    | whole fits' => exact .whole ⟨fits.1, fits'⟩
    | short beyond behind =>
      exact .short (fun both => beyond both.2) ⟨List.prefix_refl _, behind⟩

theorem tracks_put (free : u.Unlimited) (location word : Int32) :
    ∃ v, (cutting listing object).Tracks (fun o => o.put location word) u () v := by
  obtain ⟨next, w, put⟩ := Image.Writer.tracks_put object free.object location word
  exact ⟨_, tracks_object listing object free put fun _ => ()⟩

/-- A result without what it says about lines. -/
def plain {α β : Type} (r : Except WriteError α × β × Outputs) : Except WriteError α × Outputs :=
  (r.1, r.2.2)

/-- What a step does to the outputs. -/
def act : Step → Outputs → Except WriteError Unit × Outputs
  | .note _, o => (.ok (), o)
  | .list entry, o => o.list entry
  | .put location word, o => o.put location word

theorem tracks_act (free : u.Unlimited) (step : Step) :
    ∃ v, (cutting listing object).Tracks (act step) u () v := by
  cases step with
  | note ds => exact ⟨u, tracks_idle listing object free ()⟩
  | list entry => exact tracks_list listing object free entry
  | put location word => exact tracks_put listing object free location word

theorem plain_runSteps_cons (step : Step) (rest : List Step) (line : Line) :
    ∃ line', (fun o : Outputs => plain (o.runSteps (step :: rest) line)) =
      chain (act step) fun _ o => plain (o.runSteps rest line') := by
  cases step with
  | note ds => exact ⟨_, rfl⟩
  | list entry =>
    refine ⟨line, funext fun o => ?_⟩
    simp only [runSteps, chain, act]
    rcases o.list entry with ⟨e | _, o⟩ <;> rfl
  | put location word =>
    refine ⟨line, funext fun o => ?_⟩
    simp only [runSteps, chain, act]
    rcases o.put location word with ⟨e | _, o⟩ <;> rfl

theorem tracks_runSteps (free : u.Unlimited) (steps : List Step) (line : Line) :
    ∃ v, (cutting listing object).Tracks (fun o => plain (o.runSteps steps line)) u () v := by
  induction steps generalizing u line with
  | nil => exact ⟨u, tracks_idle listing object free ()⟩
  | cons step rest ih =>
    obtain ⟨line', runs⟩ := plain_runSteps_cons step rest line
    obtain ⟨v, acted⟩ := tracks_act listing object free step
    obtain ⟨w, later⟩ := ih acted.free line'
    rw [runs]
    exact ⟨w, acted.chain later⟩

theorem tracks_runLines (free : u.Unlimited) (plans : List (Line × List Step)) :
    ∃ v, (cutting listing object).Tracks (fun o => plain (o.runLines plans)) u () v := by
  induction plans generalizing u with
  | nil => exact ⟨u, tracks_idle listing object free ()⟩
  | cons entry rest ih =>
    obtain ⟨line, steps⟩ := entry
    obtain ⟨v, listed⟩ := tracks_runSteps listing object free steps line
    obtain ⟨w, later⟩ := ih listed.free
    have runs : (fun o : Outputs => plain (o.runLines ((line, steps) :: rest))) =
        chain (fun o => plain (o.runSteps steps line)) fun _ o => plain (o.runLines rest) := by
      funext o
      simp only [runLines, chain, plain]
      rcases o.runSteps steps line with ⟨e | _, line', o⟩ <;> rfl
    rw [runs]
    exact ⟨w, listed.chain later⟩

theorem tracks_listBoth (free : u.Unlimited) (first second : Diagnostic) :
    ∃ v, (cutting listing object).Tracks (fun o => o.listBoth first second) u () v := by
  obtain ⟨v, listed⟩ := tracks_list listing object free (.diagnostic first.message)
  obtain ⟨w, listed'⟩ := tracks_list listing object listed.free (.diagnostic second.message)
  have runs : (fun o : Outputs => o.listBoth first second) =
      chain (fun o => o.list (.diagnostic first.message)) fun _ o =>
        o.list (.diagnostic second.message) := by
    funext o
    simp only [listBoth, chain]
    rcases o.list (.diagnostic first.message) with ⟨e | _, o⟩ <;> rfl
  rw [runs]
  exact ⟨w, listed.chain listed'⟩

end Outputs

namespace Assembly

variable (listing object : Option Nat) {u : Outputs}

theorem tracks_finish (free : u.Unlimited) (a : Assembly) (report : Report) :
    ∃ report' v, (Outputs.cutting listing object).Tracks (a.finish report) u report' v := by
  cases start : a.startValue? with
  | none =>
    have runs : a.finish report = fun o => (.ok report, o) := by
      funext o
      simp only [finish, start]
    exact ⟨report, u, runs ▸ Outputs.tracks_idle listing object free report⟩
  | some value =>
    cases value with
    | ok address =>
      have runs : a.finish report = fun o => (.ok { report with start := some address },
          { o with object := o.object.setStart address }) := by
        funext o
        simp only [finish, start]
      rw [runs]
      have kept : (Image.Writer.cutting object).Tracks
          (fun w => (.ok (), w.setStart address)) u.object () (u.object.setStart address) :=
        Image.Writer.tracks_pure object (f := fun w => w.setStart address) free.object rfl rfl ()
      exact ⟨_, _, Outputs.tracks_object listing object free kept fun _ => _⟩
    | error e =>
      have runs : a.finish report = fun o =>
          ((o.listBoth (.evaluation e) .startNotEvaluated).1.map fun _ =>
              { report with diagnostics := report.diagnostics + 2 },
            (o.listBoth (.evaluation e) .startNotEvaluated).2) := by
        funext o
        simp only [finish, start]
      obtain ⟨v, listed⟩ := Outputs.tracks_listBoth listing object free (.evaluation e)
        .startNotEvaluated
      rw [runs]
      exact ⟨_, v, listed.map fun _ => _⟩

/-- What a second pass and a whole run leave of the outputs. -/
def outcome {α β γ : Type} (r : Except WriteError α × β × γ × Outputs) :
    Except WriteError α × Outputs :=
  (r.1, r.2.2.2)

theorem tracks_passTwo (free : u.Unlimited) (source : Source) (a : Assembly) :
    ∃ report v, (Outputs.cutting listing object).Tracks (fun o => outcome (a.passTwo source o)) u
      report v := by
  let plans := (a.planLines source.lines a.poolLines).1
  obtain ⟨v, listed⟩ := Outputs.tracks_runLines listing object free plans
  obtain ⟨report, w, finished⟩ := tracks_finish listing object listed.free a (a.report plans)
  have runs : (fun o => outcome (a.passTwo source o)) =
      chain (fun o => Outputs.plain (o.runLines plans)) fun _ => a.finish (a.report plans) := by
    funext o
    simp only [passTwo, chain, outcome, Outputs.plain, plans]
    rcases o.runLines (a.planLines source.lines a.poolLines).1 with ⟨e | _, lines, o⟩ <;> rfl
  rw [runs]
  exact ⟨report, w, listed.chain finished⟩

theorem tracks_run (free : u.Unlimited) (source : Source) (a : Assembly) :
    ∃ report v, (Outputs.cutting listing object).Tracks (fun o => outcome (a.run source o)) u
      report v := by
  obtain ⟨report, v, listed⟩ := tracks_passTwo listing object free (a.passOne source).1
    (a.passOne source).2
  obtain ⟨w, closed⟩ := Image.Writer.tracks_close object listed.free.object
  have runs : (fun o => outcome (a.run source o)) =
      chain (fun o => outcome ((a.passOne source).2.passTwo (a.passOne source).1 o))
        fun report o => (o.object.close.1.map fun _ => report, ⟨o.listing, o.object.close.2⟩) := by
    funext o
    simp only [run, chain, outcome]
    rcases (a.passOne source).2.passTwo (a.passOne source).1 o with
      ⟨e | _, source', a', o⟩ <;> rfl
  rw [runs]
  exact ⟨report, _, listed.chain (Outputs.tracks_object listing object listed.free closed
    fun _ => report)⟩

end Assembly

namespace Outputs

/-- Fresh outputs with limits, the bytes of a leader already in the object image. -/
def ofLeader (format : Image.Format) (leader : Array UInt8) (listing object : Option Nat) :
    Outputs :=
  ⟨{ limit := listing }, ((Image.Writer.init { limit := object } format).writeLeader leader).2⟩

variable {format : Image.Format} {leader : Array UInt8} {listing object : Option Nat}

theorem ofLeader_of_fits (fits : ∀ n ∈ object, leader.size ≤ n) :
    ofLeader format leader listing object =
      ⟨{ limit := listing }, .init { limit := object, bytes := leader } format⟩ := by
  have room : Sink.fits { limit := object } leader.size = true := by
    simpa [Sink.fits, Option.all_eq_true] using fits
  simp [ofLeader, Image.Writer.writeLeader, Image.Writer.init, Sink.write, room]

theorem cap_ofLeader (fits : ∀ n ∈ object, leader.size ≤ n) :
    (cutting listing object).cap (ofLeader format leader none none) =
      ofLeader format leader listing object := by
  rw [ofLeader_of_fits fits, ofLeader_of_fits (by simp)]
  rfl

end Outputs

/-- Limits on the outputs of an assembly run, wide enough for the leader, do nothing but cut the
outputs short: listing and image are beginnings of what they are without limits. The run succeeds
exactly if both are within their limits, and then they and the report are the same. -/
theorem limits_only_truncate (dialect : Dialect) (format : Image.Format) (source : Source)
    (leader : Array UInt8) (listing object : Option Nat) (fits : ∀ n ∈ object, leader.size ≤ n) :
    let full := Assembly.outcome (assemble dialect source (.ofLeader format leader none none))
    let cut := Assembly.outcome (assemble dialect source (.ofLeader format leader listing object))
    (∃ report, full.1 = .ok report) ∧
      cut.2.listing.bytes.toList <+: full.2.listing.bytes.toList ∧
      cut.2.object.sink.bytes.toList <+: full.2.object.sink.bytes.toList ∧
      ((∃ report, cut.1 = .ok report) ↔
        (∀ n ∈ listing, full.2.listing.bytes.size ≤ n) ∧
          ∀ n ∈ object, full.2.object.sink.bytes.size ≤ n) ∧
      ∀ report, cut.1 = .ok report →
        full.1 = .ok report ∧ cut.2.listing.bytes = full.2.listing.bytes ∧
          cut.2.object.sink.bytes = full.2.object.sink.bytes := by
  intro full cut
  have start : Outputs.ofLeader format leader none none =
      ⟨{}, .init { bytes := leader } format⟩ := Outputs.ofLeader_of_fits (by simp)
  have free : (Outputs.ofLeader format leader none none).Unlimited := start ▸ ⟨rfl, rfl⟩
  obtain ⟨report, v, tracked⟩ :=
    Assembly.tracks_run listing object free source (Assembly.init dialect)
  have whole : full = (.ok report, v) := tracked.full
  have left : (Outputs.cutting listing object).Leaves report v cut := by
    have cutShort := tracked.cut (start ▸ ⟨fun _ _ => Nat.zero_le _, fits⟩)
    rwa [Outputs.cap_ofLeader fits] at cutShort
  rw [whole]
  generalize cut = cut' at left ⊢
  cases left with
  | whole within =>
    refine ⟨⟨report, rfl⟩, List.prefix_refl _, List.prefix_refl _, ⟨fun _ => within, fun _ =>
      ⟨report, rfl⟩⟩, ?_⟩
    rintro report' ⟨⟩
    exact ⟨rfl, rfl, rfl⟩
  | short beyond behind =>
    refine ⟨⟨report, rfl⟩, behind.1, behind.2, ⟨?_, fun within => absurd within beyond⟩, ?_⟩
    · rintro ⟨report', ⟨⟩⟩
    · rintro report' ⟨⟩

theorem size_image_of_word :
    (Assembly.outcome (assemble .midas (.ofText "word" "\t5")
      (.ofLeader .block #[1, 2] none none))).2.object.sink.bytes.size = 12 := by
  decide +kernel

/-- A limit inside the header of the only block. -/
theorem limits_truncate_image :
    let source := Source.ofText "word" "\t5"
    let full := Assembly.outcome (assemble .midas source (.ofLeader .block #[1, 2] none none))
    let cut := Assembly.outcome (assemble .midas source (.ofLeader .block #[1, 2] none (some 7)))
    (∀ n ∈ some 7, (#[1, 2] : Array UInt8).size ≤ n) ∧
      cut.2.object.sink.bytes.toList <+: full.2.object.sink.bytes.toList ∧
      ¬ ∃ report, cut.1 = .ok report := by
  have fits : ∀ n ∈ some 7, (#[1, 2] : Array UInt8).size ≤ n := by simp
  obtain ⟨-, -, image, succeeds, -⟩ :=
    limits_only_truncate .midas .block (.ofText "word" "\t5") #[1, 2] none (some 7) fits
  refine ⟨fits, image, fun ok => ?_⟩
  have within := (succeeds.mp ok).2 7 rfl
  rw [size_image_of_word] at within
  omega

end Pds1
