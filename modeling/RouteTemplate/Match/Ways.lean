import RouteTemplate.Match.Search

namespace RouteTemplate

/-- A way to match tokens: the bindings made, and the place where the path goes on. -/
structure Way where
  log : Match.Log
  stop : Cursor
deriving DecidableEq, Repr

def Way.followedBy (w v : Way) : Way := ⟨w.log ++ v.log, v.stop⟩

def Way.taking (name : Option String) (value : Value) (stop : Cursor) : Way :=
  ⟨name.toList.map (·, value), stop⟩

namespace Cursor

/-- A variable takes the whole run, or less of it down to one character. -/
def varWays (name : Option String) (c : Cursor) : List Way :=
  (List.range c.run.length).reverse.map fun k =>
    .taking name (.one (String.ofList (c.run.take (k + 1)))) (c.advance (k + 1))

/-- The texts between the slashes ahead, up to a dot or an empty one. -/
def segmentTexts (c : Cursor) : List (List Char) :=
  ((c.pastSeparator.after.takeWhile (· != '.')).splitOn '/').takeWhile (!·.isEmpty)

def segmentWays (name : Option String) (c : Cursor) : List Way :=
  let texts := c.segmentTexts
  (List.range texts.length).reverse.map fun k =>
    let taken := texts.take (k + 1)
    .taking name (.many (taken.map String.ofList))
      (c.pastSeparator.advance (List.intercalate ['/'] taken).length)

/-- Last of all a splat takes nothing, and then it may give back the slash before it. -/
def splatWays (name : Option String) (c : Cursor) : List Way :=
  c.segmentWays name ++ (c :: c.giveBack?.toList).map (.taking name (.many []))

end Cursor

mutual

def Token.ways : Token → Cursor → List Way
  | .literal text, c =>
    if text.toList.isPrefixOf c.after then [⟨[], c.advance text.toList.length⟩] else []
  | .var name, c => c.varWays name
  | .splat name, c => c.splatWays name
  | .group inner, c => Tokens.ways inner c ++ [⟨[], c⟩]

def Tokens.ways : List Token → Cursor → List Way
  | [], c => [⟨[], c⟩]
  | t :: ts, c => (t.ways c).flatMap fun w => (Tokens.ways ts w.stop).map w.followedBy

end

/-- The first way to match the whole path. -/
def Tokens.firstWay? (tokens : List Token) (path : List Char) : Option Way :=
  (Tokens.ways tokens (Cursor.start path)).find? (·.stop.atEnd)

end RouteTemplate
