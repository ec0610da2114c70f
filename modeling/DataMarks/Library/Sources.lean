/-
  The texts of the modules that every source file can import.
-/

namespace DataMarks.Library

/-- Marks in the plane. -/
def plane : String := "
mark Triangle(
    p1: Vector2,
    p2: Vector2,
    p3: Vector2,
    color: Color = [0, 0, 0, 1]
) {
    emit [
        { position: p1, color: color },
        { position: p2, color: color },
        { position: p3, color: color }
    ];
}

mark Rectangle(
    p1: Vector2,
    p2: Vector2,
    color: Color = [0, 0, 0, 1]
) {
    emit [
        { position: Vector2(p1.x, p1.y), color: color },
        { position: Vector2(p2.x, p1.y), color: color },
        { position: Vector2(p2.x, p2.y), color: color }
    ];
    emit [
        { position: Vector2(p1.x, p1.y), color: color },
        { position: Vector2(p1.x, p2.y), color: color },
        { position: Vector2(p2.x, p2.y), color: color }
    ];
}

mark OutlinedRectangle(
    p1: Vector2,
    p2: Vector2,
    width: float = 1,
    color: Color = [0, 0, 0, 1]
) {
    Rectangle(p1, Vector2(p1.x + width, p2.y - width), color);
    Rectangle(Vector2(p1.x, p2.y - width), Vector2(p2.x - width, p2.y), color);
    Rectangle(Vector2(p1.x + width, p1.y), Vector2(p2.x, p1.y + width), color);
    Rectangle(Vector2(p2.x - width, p1.y + width), p2, color);
}

mark Hexagon(
    center: Vector2,
    radius: float,
    color: Color = [0, 0, 0, 1]
) {
    for (i in 0..5) {
        let a1 = i / 6.0 * PI * 2.0;
        let a2 = (i + 1) / 6.0 * PI * 2.0;
        let p1 = Vector2(radius * cos(a1), radius * sin(a1));
        let p2 = Vector2(radius * cos(a2), radius * sin(a2));
        emit [
            { position: center + p1, color: color },
            { position: center, color: color },
            { position: center + p2, color: color }
        ];
    }
}

mark Circle16(
    center: Vector2,
    radius: float,
    color: Color = [0, 0, 0, 1]
) {
    for (i in 0..15) {
        let a1 = i / 16.0 * PI * 2.0;
        let a2 = (i + 1) / 16.0 * PI * 2.0;
        let p1 = Vector2(radius * cos(a1), radius * sin(a1));
        let p2 = Vector2(radius * cos(a2), radius * sin(a2));
        emit [
            { position: center + p1, color: color },
            { position: center, color: color },
            { position: center + p2, color: color }
        ];
    }
}

mark Circle(
    center: Vector2,
    radius: float,
    color: Color = [0, 0, 0, 1]
) {
    for (i in 0..31) {
        let a1 = i / 32.0 * PI * 2.0;
        let a2 = (i + 1) / 32.0 * PI * 2.0;
        let p1 = Vector2(radius * cos(a1), radius * sin(a1));
        let p2 = Vector2(radius * cos(a2), radius * sin(a2));
        emit [
            { position: center + p1, color: color },
            { position: center, color: color },
            { position: center + p2, color: color }
        ];
    }
}

mark Line(
    p1: Vector2,
    p2: Vector2,
    thickness: float = 1,
    color: Color = [0, 0, 0, 1]
) {
    let d = normalize(p2 - p1);
    let t = Vector2(d.y, -d.x) * (thickness / 2);
    emit [
        { position: p1 + t, color: color },
        { position: p1 - t, color: color },
        { position: p2 + t, color: color }
    ];
    emit [
        { position: p1 - t, color: color },
        { position: p2 - t, color: color },
        { position: p2 + t, color: color }
    ];
}
"

/-- Marks in space. -/
def solid : String := "
mark Triangle(
    p1: Vector3,
    p2: Vector3,
    p3: Vector3,
    color: Color = [0, 0, 0, 1]
) {
    let normal = normalize(cross(p2 - p1, p3 - p1));
    emit [
        { position: p1, color: color, normal: normal },
        { position: p2, color: color, normal: normal },
        { position: p3, color: color, normal: normal }
    ];
}

mark Tetrahedron(
    p1: Vector3,
    p2: Vector3,
    p3: Vector3,
    p4: Vector3,
    color: Color = [0, 0, 0, 1]
) {
    Triangle(p3, p4, p1, color);
    Triangle(p1, p4, p2, color);
    Triangle(p1, p2, p3, color);
    Triangle(p2, p3, p4, color);
}

mark Line(
    p1: Vector3,
    p2: Vector3,
    width: float = 1,
    color: Color = [1, 0, 1, 1]
) {
    let center = (p1 + p2) * 0.5;
    let d = p2 - p1;
    let v = get_camera_direction(center);
    let F = normalize(cross(d, v));
    let normal = normalize(cross(F, d));
    let s = width * 0.5;
    emit [
        { position: p1 + F * s, color: color, normal: normal },
        { position: p2 + F * s, color: color, normal: normal },
        { position: p1 - F * s, color: color, normal: normal },
        { position: p1 - F * s, color: color, normal: normal },
        { position: p2 - F * s, color: color, normal: normal },
        { position: p2 + F * s, color: color, normal: normal }
    ];
}

mark Cube(
    center: Vector3,
    radius: float,
    color: Color
) {
    let p000 = Vector3(center.x - radius, center.y - radius, center.z - radius);
    let p001 = Vector3(center.x - radius, center.y - radius, center.z + radius);
    let p010 = Vector3(center.x - radius, center.y + radius, center.z - radius);
    let p011 = Vector3(center.x - radius, center.y + radius, center.z + radius);
    let p100 = Vector3(center.x + radius, center.y - radius, center.z - radius);
    let p101 = Vector3(center.x + radius, center.y - radius, center.z + radius);
    let p110 = Vector3(center.x + radius, center.y + radius, center.z - radius);
    let p111 = Vector3(center.x + radius, center.y + radius, center.z + radius);
    let nx = Vector3(1, 0, 0);
    let ny = Vector3(0, 1, 0);
    let nz = Vector3(0, 0, 1);
    emit [ { position: p000, color: color, normal: nz }, { position: p110, color: color, normal: nz }, { position: p100, color: color, normal: nz } ];
    emit [ { position: p000, color: color, normal: nz }, { position: p010, color: color, normal: nz }, { position: p110, color: color, normal: nz } ];
    emit [ { position: p001, color: color, normal: nz }, { position: p101, color: color, normal: nz }, { position: p111, color: color, normal: nz } ];
    emit [ { position: p001, color: color, normal: nz }, { position: p111, color: color, normal: nz }, { position: p011, color: color, normal: nz } ];
    emit [ { position: p000, color: color, normal: ny }, { position: p100, color: color, normal: ny }, { position: p101, color: color, normal: ny } ];
    emit [ { position: p000, color: color, normal: ny }, { position: p101, color: color, normal: ny }, { position: p001, color: color, normal: ny } ];
    emit [ { position: p010, color: color, normal: ny }, { position: p111, color: color, normal: ny }, { position: p110, color: color, normal: ny } ];
    emit [ { position: p010, color: color, normal: ny }, { position: p011, color: color, normal: ny }, { position: p111, color: color, normal: ny } ];
    emit [ { position: p000, color: color, normal: nx }, { position: p001, color: color, normal: nx }, { position: p011, color: color, normal: nx } ];
    emit [ { position: p000, color: color, normal: nx }, { position: p011, color: color, normal: nx }, { position: p010, color: color, normal: nx } ];
    emit [ { position: p100, color: color, normal: nx }, { position: p101, color: color, normal: nx }, { position: p111, color: color, normal: nx } ];
    emit [ { position: p100, color: color, normal: nx }, { position: p111, color: color, normal: nx }, { position: p110, color: color, normal: nx } ];
}
"

/-- The modules by name. The number of a module is that of its file. -/
def sources : List (String × String) := [("P2D", plane), ("P3D", solid)]

end DataMarks.Library
