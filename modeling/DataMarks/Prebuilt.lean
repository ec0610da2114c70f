/-
  Marks and shaders that come ready for use. Circles and wedges are drawn with a
  number of sides of choice.
-/
import DataMarks.Compilation

namespace DataMarks.Prebuilt

/-! ## Sources -/

def rectangleSource : String := "
mark Rectangle(
    p1: Vector2 = [0, 0],
    p2: Vector2 = [0, 0],
    color: Color = [0, 0, 0, 1]
) {
    emit [
        { position: Vector2(p1.x, p1.y), color: color },
        { position: Vector2(p2.x, p1.y), color: color },
        { position: Vector2(p2.x, p2.y), color: color }
    ];
    emit [
        { position: Vector2(p1.x, p1.y), color: color },
        { position: Vector2(p1.x, p2.y), color: color },
        { position: Vector2(p2.x, p2.y), color: color }
    ];
}
"

def lineSource : String := "
mark Line(
    p1: Vector2 = [0, 0],
    p2: Vector2 = [0, 0],
    width: float = 1,
    color: Color = [0, 0, 0, 1]
) {
    let d = normalize(p2 - p1);
    let t = Vector2(d.y, -d.x) * (width / 2);
    emit [
        { position: p1 + t, color: color },
        { position: p1 - t, color: color },
        { position: p2 + t, color: color }
    ];
    emit [
        { position: p1 - t, color: color },
        { position: p2 - t, color: color },
        { position: p2 + t, color: color }
    ];
}
"

def polylineSource : String := "\nimport \x7b Triangle \x7d from P2D;

mark Sector2(c: Vector2, p1: Vector2, p2: Vector2, color: Color) {
    let pc = c + normalize(p1 + p2 - c - c) * length(p1 - c);
    Triangle(c, p1, pc, color);
    Triangle(c, pc, p2, color);
}

mark Sector4(c: Vector2, p1: Vector2, p2: Vector2, color: Color) {
    let pc = c + normalize(p1 + p2 - c - c) * length(p1 - c);
    Sector2(c, p1, pc, color);
    Sector2(c, pc, p2, color);
}

mark PolylineRound(
    p: Vector2, p_p: Vector2, p_n: Vector2, p_nn: Vector2,
    width: float = 1,
    color: Color = [0, 0, 0, 1]
) {
    let EPS = 1e-5;
    let w = width / 2;
    let d = normalize(p - p_n);
    let n = Vector2(d.y, -d.x);
    let m1: Vector2;
    if length(p - p_p) < EPS {
        m1 = n * w;
    } else {
        m1 = normalize(d + normalize(p - p_p)) * w;
    }
    let m2: Vector2;
    if length(p_n - p_nn) < EPS {
        m2 = -n * w;
    } else {
        m2 = normalize(normalize(p_n - p_nn) - d) * w;
    }
    let c1a: Vector2;
    let c1b: Vector2;
    let a1: Vector2;
    let a2: Vector2;
    if dot(m1, n) > 0 {
        c1a = p + m1;
        c1b = p + n * w;
        a2 = c1b;
        a1 = p - m1 * (w / dot(m1, n));
    } else {
        c1a = p + m1;
        c1b = p - n * w;
        a2 = p + m1 * (w / dot(m1, n));
        a1 = c1b;
    }
    let c2a: Vector2;
    let c2b: Vector2;
    let b1: Vector2;
    let b2: Vector2;
    if dot(m2, n) < 0 {
        c2a = p_n + m2;
        c2b = p_n - n * w;
        b1 = c2b;
        b2 = p_n + m2 * (w / dot(m2, n));
    } else {
        c2a = p_n + m2;
        c2b = p_n + n * w;
        b2 = c2b;
        b1 = p_n - m2 * (w / dot(m2, n));
    }
    Sector4(p, c1a, c1b, color);
    Sector4(p_n, c2a, c2b, color);
    Triangle(p, a1, b1, color);
    Triangle(p, b1, p_n, color);
    Triangle(p, a2, b2, color);
    Triangle(p, b2, p_n, color);
}
"

/-- A circle of so many triangles around its center. -/
def circleSource (sides : Nat) : String :=
  let last := sides - 1
  let divisor := s!"{sides}.0"
  s!"
mark Circle(
    center: Vector2 = [0, 0],
    radius: float = 1,
    color: Color = [0, 0, 0, 1]
) \x7b
    for (i in 0..{last}) \x7b
        let a1 = i / {divisor} * PI * 2.0;
        let a2 = (i + 1) / {divisor} * PI * 2.0;
        let p1 = Vector2(radius * cos(a1), radius * sin(a1));
        let p2 = Vector2(radius * cos(a2), radius * sin(a2));
        emit [
            \x7b position: center + p1, color: color \x7d,
            \x7b position: center, color: color \x7d,
            \x7b position: center + p2, color: color \x7d
        ];
    \x7d
\x7d
"

/-- An arc of so many segments. -/
def wedgeSource (sides : Nat) : String :=
  let last := sides - 1
  s!"\nimport \x7b Triangle \x7d from P2D;

mark Wedge(
    p1: Vector2 = [0, 0],
    theta1: float = 0,
    theta2: float = 0,
    length: float = 10,
    width: float = 1,
    color: Color = [0, 0, 0, 1]
) \x7b
    let dTheta = (theta2 - theta1) / {sides};
    let dL = length / {sides};
    for (i in 0..{last}) \x7b
        let dThetaA = i * dTheta;
        let dThetaB = (i + 1) * dTheta;
        let thetaA = theta1 + dThetaA;
        let thetaB = theta1 + dThetaB;
        let thetaCenterA = theta1 + dThetaA / 2;
        let thetaCenterB = theta1 + dThetaB / 2;
        let dlA = dL * i;
        let dlB = dL * (i + 1);
        if dThetaA > 1e-5 || dThetaA < -1e-5 \x7b
            dlA = dlA / dThetaA * 2 * sin(dThetaA / 2);
        \x7d
        if dThetaB > 1e-5 || dThetaB < -1e-5 \x7b
            dlB = dlB / dThetaB * 2 * sin(dThetaB / 2);
        \x7d
        let pAdvA = Vector2(-sin(thetaCenterA), cos(thetaCenterA)) * dlA;
        let pAdvB = Vector2(-sin(thetaCenterB), cos(thetaCenterB)) * dlB;
        let pA = p1 + pAdvA;
        let pB = p1 + pAdvB;

        let dpA = Vector2(cos(thetaA), sin(thetaA)) * width * 0.5;
        let dpB = Vector2(cos(thetaB), sin(thetaB)) * width * 0.5;

        Triangle(pA + dpA, pB + dpB, pB - dpB, color);
        Triangle(pA + dpA, pB - dpB, pA - dpA, color);
    \x7d
\x7d
"

def basicSource : String := "
shader Default(
    color: Color = [0, 0, 0, 1]
) {
    emit { color: color };
}
"

def lightingSource : String := "
shader Default(
    color: Color = [0, 0, 0, 1],
    normal: Vector3,
    position: Vector3
) {
    let lighting = normalize(position);
    let NdotL = abs(dot(normal, lighting));
    let s = NdotL * 0.5 + 0.5;
    emit { color: Color(s * color.r, s * color.g, s * color.b, color.a) };
}
"

/-! ## Specifications -/

/-- The specification with a name in a source text. -/
def compileOne (source name : String) : Except SourceError Specification := do
  let specs ← compileSource Library.firstFile source
  return (specs.get? name).getD default

/-- The specification in a source text that is known to be right. -/
def builtIn (source name : String) : Specification :=
  match compileOne source name with
  | .ok s => s
  | .error _ => default

/-- A filled circle; there is at least one side. -/
def circle (sides : Nat) : Except SourceError Specification :=
  compileOne (circleSource (max sides 1)) "Circle"

/-- A rectangle between two corners. -/
def rectangle : Specification := builtIn rectangleSource "Rectangle"

/-- A straight line of a width. -/
def line : Specification := builtIn lineSource "Line"

/-- An arc whose direction turns over its length; there is at least one segment. -/
def wedge (sides : Nat) : Except SourceError Specification :=
  compileOne (wedgeSource (max sides 1)) "Wedge"

/-- A line through consecutive data with round joins. -/
def polyline : Specification :=
  { builtIn polylineSource "PolylineRound" with repeats := some (1, 1) }

/-- A shader that passes colors on. -/
def basicShader : Specification := builtIn basicSource "Default"

/-- A shader that darkens colors by the slope of the surface. -/
def lightingShader : Specification := builtIn lightingSource "Default"

/-- The mark or shader with a short name; the number of sides matters for round marks only. -/
def find? (name : String) (sides : Nat) : Option (Except SourceError Specification) :=
  match name with
  | "circle" => some (circle sides)
  | "wedge" => some (wedge sides)
  | "rect" => some (.ok rectangle)
  | "line" => some (.ok line)
  | "polyline" => some (.ok polyline)
  | "basic" => some (.ok basicShader)
  | "lighting" => some (.ok lightingShader)
  | _ => none

end DataMarks.Prebuilt
